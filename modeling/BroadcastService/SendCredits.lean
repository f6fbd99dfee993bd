import BroadcastService.OutgoingQueue
import BroadcastService.ReliableCalls
import BroadcastService.SendBudget

/-!
# The credits of a channel

A credit of `send_budget_` is spent for every payload packet written and comes back with the
acknowledgement of a message and with each of its retries. The credits that are neither in the
counter nor in the hands of `Handle`, and the payload packets that wait to be written, are to be
covered by the entries of `message_entries_`, each of which brings one credit back; `balance` is
what they leave uncovered. Returning a credit to a full counter has no effect: if it was returned
for a message with a packet that is still to be written, the credit which that packet spends never
comes back (`credit_lost`).

As long as no step takes the balance above zero, an idle channel has its whole budget. After a step
that does, a channel that has come to rest lacks credits, unless `Send` has dropped a packet
(`credits_conserved`).
-/

namespace BroadcastService.Transport

namespace WriteHandler

variable {s s' : WriteSystem}

def unspent (s : WriteSystem) : ℕ :=
  s.sendBudget.counter + s.stage.budget.getD 0 + s.stage.reserved

/-- The payload packets that were accepted and are not written yet. -/
def waiting (s : WriteSystem) : ℕ :=
  s.outgoingPackets.stack.countP PacketLinked.isPayload +
    s.stage.batch.countP PacketLinked.isPayload + s.registered.countP PacketLinked.isPayload

def offered (s : WriteSystem) : ℕ :=
  s.started.countP PacketLinked.isPayload + s.checked.countP PacketLinked.isPayload

/-- The credits that the waiting packets need and the channel does not have. -/
def demand (s : WriteSystem) : ℤ := waiting s - unspent s

def clipped (budget : SharedBudget) (credit : ℕ) : ℤ :=
  budget.counter + credit - (budget.topUp credit).counter

/-- What is lost of the budget that `Handle` returns in its next access. -/
def clippedByHandle (s : WriteSystem) : ℤ :=
  match s.stage with
  | .emptyBatch budget => clipped s.sendBudget budget
  | .toppingUp budget _ => if 0 < budget then clipped s.sendBudget budget else 0
  | _ => 0

theorem clipped_nonneg (budget : SharedBudget) (credit : ℕ) : 0 ≤ clipped budget credit := by
  have hle := (topUp_counter budget credit).1
  unfold clipped
  omega

theorem clippedByHandle_nonneg (s : WriteSystem) : 0 ≤ clippedByHandle s := by
  unfold clippedByHandle
  split
  · exact clipped_nonneg _ _
  · split_ifs
    · exact clipped_nonneg _ _
    · exact le_rfl
  · exact le_rfl

theorem countP_erase_add {linked : PacketLinked} {l : List PacketLinked} (h : linked ∈ l) :
    l.countP PacketLinked.isPayload = (l.erase linked).countP PacketLinked.isPayload +
      if PacketLinked.isPayload linked then 1 else 0 := by
  rw [(List.perm_cons_erase h).countP_eq, List.countP_cons]

theorem offered_send (s : WriteSystem) (packet : Packet) :
    offered (s.send packet) = offered s + if packet.type = .payloadMessage then 1 else 0 := by
  simp only [offered, WriteSystem.send, List.countP_cons, PacketLinked.isPayload,
    decide_eq_true_eq]
  omega

theorem demand_addSendCredits (s : WriteSystem) (credits : UInt64) :
    demand (s.addSendCredits credits) =
      demand s - credits.toNat + clipped s.sendBudget credits.toNat := by
  simp only [demand, waiting, unspent, WriteSystem.addSendCredits, clipped]
  omega

theorem demand_congr (hbudget : s'.sendBudget = s.sendBudget) (hstage : s'.stage = s.stage)
    (hqueue : s'.outgoingPackets = s.outgoingPackets) (hregistered : s'.registered = s.registered) :
    demand s' = demand s := by
  simp only [demand, waiting, unspent, hbudget, hstage, hqueue, hregistered]

theorem offered_checkCap {linked : PacketLinked} (hs : s.checkCap linked = some s') :
    demand s' = demand s ∧ offered s' ≤ offered s ∧
      (¬(outgoingMessageCap ≤ s.outgoingMessageIds.card ∧ PacketLinked.isPayload linked = true) →
        offered s' = offered s) := by
  unfold WriteSystem.checkCap at hs
  split_ifs at hs with hstarted
  have hcount := countP_erase_add hstarted
  dsimp only at hs
  split_ifs at hs with hcap
  · obtain rfl := Option.some.inj hs
    refine ⟨demand_congr rfl rfl rfl rfl, ?_, fun hkept => ?_⟩
    · simp only [offered]
      omega
    · have hack : ¬PacketLinked.isPayload linked = true := fun hpayload => hkept ⟨hcap, hpayload⟩
      rw [if_neg hack, add_zero] at hcount
      simp only [offered]
      omega
  · obtain rfl := Option.some.inj hs
    have hsame : offered { s with
        started := s.started.erase linked, checked := linked :: s.checked } = offered s := by
      simp only [offered, List.countP_cons]
      omega
    exact ⟨demand_congr rfl rfl rfl rfl, hsame.le, fun _ => hsame⟩

/-- The queue accepts a packet, unless one with its identifier waits. -/
theorem offered_insertId {linked : PacketLinked} (hs : s.insertId linked = some s') :
    demand s' = demand s + (if linked.packet.id ∉ s.outgoingMessageIds ∧
        PacketLinked.isPayload linked = true then 1 else 0) ∧
      (¬(linked.packet.id ∈ s.outgoingMessageIds ∧ PacketLinked.isPayload linked = true) →
        demand s' + offered s' = demand s + offered s) := by
  unfold WriteSystem.insertId at hs
  split_ifs at hs with hchecked
  have hcount := countP_erase_add hchecked
  dsimp only at hs
  split_ifs at hs with hid
  · obtain rfl := Option.some.inj hs
    have hsame : demand { s with checked := s.checked.erase linked } = demand s :=
      demand_congr rfl rfl rfl rfl
    refine ⟨?_, fun hkept => ?_⟩
    · rw [hsame, if_neg fun h => h.1 hid, add_zero]
    · have hack : ¬PacketLinked.isPayload linked = true := fun hpayload => hkept ⟨hid, hpayload⟩
      rw [if_neg hack, add_zero] at hcount
      rw [hsame]
      simp only [offered]
      omega
  · obtain rfl := Option.some.inj hs
    simp only [hid, not_false_eq_true, true_and, demand, waiting, unspent, offered,
      List.countP_cons]
    refine ⟨?_, fun _ => ?_⟩
    · split_ifs <;> omega
    · omega

theorem demand_pushPacket {linked : PacketLinked} (hs : s.pushPacket linked = some s') :
    demand s' = demand s ∧ offered s' = offered s := by
  obtain ⟨hregistered, rfl⟩ := pushPacket_cases hs
  have hcount := countP_erase_add hregistered
  refine ⟨?_, rfl⟩
  simp only [demand, waiting, unspent, BatchedLFQueue.push, List.countP_cons]
  omega

theorem demand_event (hexclusive : Exclusive s) {type : EventType} (hs : s.event type = some s') :
    demand s' = demand s ∧ offered s' = offered s := by
  obtain ⟨harmed, hcases⟩ := event_cases hs
  have hidle := hexclusive.idle_of_armed harmed
  obtain rfl | rfl := hcases
  · refine ⟨?_, rfl⟩
    simp [demand, waiting, unspent, hidle, HandleStage.budget, HandleStage.batch,
      HandleStage.reserved]
  · refine ⟨?_, rfl⟩
    simp [demand, waiting, unspent, hidle, HandleStage.budget, HandleStage.batch,
      HandleStage.reserved]

theorem waiting_eq (s : WriteSystem) : waiting s =
    (held s).countP (PacketLinked.isPayload · = true) +
      s.registered.countP PacketLinked.isPayload := by
  simp only [waiting, held, Multiset.coe_add, Multiset.coe_countP, List.countP_append,
    Bool.decide_eq_true]

/-- A packet leaves the queue and the hands of `Handle` when it is written. -/
theorem waiting_handle {status : WriteStatus} {draw : ℕ} (hs : s.handle status draw = some s') :
    waiting s' + payloadWritten s' = waiting s + payloadWritten s ∧ offered s' = offered s := by
  obtain ⟨hsends, heffect⟩ := handle_queue hs
  refine ⟨?_, by rw [offered, offered, hsends.started, hsends.checked]⟩
  rw [waiting_eq, waiting_eq, hsends.registered]
  cases heffect with
  | keeps hheld _ hwritten _ => rw [hheld, payloadWritten, hwritten, payloadWritten]
  | deletes next hheld _ _ hwritten _ => rw [hheld, payloadWritten, hwritten, payloadWritten]
  | writes next hheld _ _ hwritten _ =>
      rw [hheld, payloadWritten, hwritten, payloadWritten, Multiset.countP_cons, List.countP_cons]
      omega

/-- Steps that leave the budget alone. -/
theorem unspent_keep (hbudget : s'.sendBudget = s.sendBudget)
    (hstage : s'.stage.budget = s.stage.budget) (hreserved : s'.stage.reserved = s.stage.reserved)
    (hwritten : s'.history.written = s.history.written) (hclipped : clippedByHandle s = 0) :
    (unspent s' + payloadWritten s' : ℤ) + clippedByHandle s = unspent s + payloadWritten s := by
  rw [hclipped, unspent, hbudget, hstage, hreserved, payloadWritten, hwritten, unspent,
    payloadWritten, add_zero]

theorem unspent_popFront {maxBudget : ℕ} (h : BudgetInv maxBudget s)
    (hmax : maxBudget < counterSpace) {budget : ℕ} {batch : List PacketLinked}
    {writeStatus : WriteStatus} (hstage : s.stage = .looping budget batch writeStatus)
    (hs : s' = s.popFront budget batch writeStatus) :
    (unspent s' + payloadWritten s' : ℤ) + clippedByHandle s = unspent s + payloadWritten s := by
  have hbudget : s.stage.budget = some budget := by rw [hstage]; rfl
  have hreserved : s.stage.reserved = 0 := by rw [hstage]; rfl
  have hclipped : clippedByHandle s = 0 := by rw [clippedByHandle, hstage]
  unfold WriteSystem.popFront at hs
  split at hs
  · subst hs
    exact unspent_keep rfl hbudget.symm hreserved.symm rfl hclipped
  · rename_i next batch
    split_ifs at hs with htype hpoor
    · subst hs
      exact unspent_keep rfl hbudget.symm hreserved.symm rfl hclipped
    · have hpayload : PacketLinked.isPayload next = true := decide_eq_true htype
      rw [h.sub_messageSize hmax hbudget hpoor] at hs
      simp only [WriteSystem.messageSize, not_lt] at hpoor
      subst hs
      simp only [hclipped, unspent, payloadWritten, hstage, HandleStage.budget,
        HandleStage.reserved, hpayload, if_true, Option.getD_some]
      omega
    · have hack : PacketLinked.isPayload next = false := decide_eq_false htype
      subst hs
      refine unspent_keep rfl hbudget.symm ?_ rfl hclipped
      rw [hreserved, HandleStage.reserved, hack]
      rfl

theorem unspent_write {maxBudget : ℕ} (h : BudgetInv maxBudget s) (hmax : maxBudget < counterSpace)
    {budget : ℕ} {next : PacketLinked} {batch : List PacketLinked} {status : WriteStatus}
    (hstage : s.stage = .spent budget next batch) (hs : s' = s.write budget next batch status) :
    (unspent s' + payloadWritten s' : ℤ) + clippedByHandle s = unspent s + payloadWritten s := by
  have hbudget : s.stage.budget = some budget := by rw [hstage]; rfl
  have hclipped : clippedByHandle s = 0 := by rw [clippedByHandle, hstage]
  unfold WriteSystem.write at hs
  split_ifs at hs with hok htype
  · subst hs
    simp only [hclipped, unspent, payloadWritten, hstage, HandleStage.budget, HandleStage.reserved,
      Option.getD_some, List.countP_cons]
    omega
  · have hpayload : PacketLinked.isPayload next = true := decide_eq_true htype
    rw [h.add_messageSize hmax hstage hpayload] at hs
    subst hs
    simp only [hclipped, unspent, payloadWritten, hstage, HandleStage.budget, HandleStage.reserved,
      hpayload, if_true, Option.getD_some]
    omega
  · have hack : PacketLinked.isPayload next = false := decide_eq_false htype
    have hreserved : s.stage.reserved = 0 := by
      rw [hstage, HandleStage.reserved, hack]
      rfl
    subst hs
    exact unspent_keep rfl hbudget.symm hreserved.symm rfl hclipped

/-- A credit is spent for each payload packet written, and lost when its return is clipped. -/
theorem unspent_handle {maxBudget : ℕ} (h : BudgetInv maxBudget s)
    (hmax : maxBudget < counterSpace) {status : WriteStatus} {draw : ℕ}
    (hs : s.handle status draw = some s') :
    (unspent s' + payloadWritten s' : ℤ) + clippedByHandle s = unspent s + payloadWritten s := by
  cases handle_cases hs with
  | credit hstage =>
      have hcounter := h.counter
      have hmin : min s.sendBudget.counter (counterSpace - 1) = s.sendBudget.counter := by omega
      simp only [unspent, payloadWritten, clippedByHandle, hstage, WriteSystem.credit,
        SharedBudget.credit, hmin, HandleStage.budget, HandleStage.reserved]
      split_ifs with hzero
      · simp [hzero]
      · simp
  | tryPopAll budget hstage =>
      have hbudget : s.stage.budget = some budget := by rw [hstage]; rfl
      have hreserved : s.stage.reserved = 0 := by rw [hstage]; rfl
      have hclipped : clippedByHandle s = 0 := by rw [clippedByHandle, hstage]
      unfold WriteSystem.tryPopAll
      dsimp only
      split_ifs
      · exact unspent_keep rfl hbudget.symm hreserved.symm rfl hclipped
      · exact unspent_keep rfl hbudget.symm hreserved.symm rfl hclipped
  | returnBudget budget hstage =>
      simp only [unspent, payloadWritten, clippedByHandle, hstage, WriteSystem.returnBudget,
        clipped, HandleStage.budget, HandleStage.reserved, Option.getD_some, Option.getD_none]
      omega
  | popFront budget batch writeStatus hstage => exact unspent_popFront h hmax hstage rfl
  | write budget next batch hstage => exact unspent_write h hmax hstage rfl
  | deleteId budget next batch hstage =>
      have hclipped : clippedByHandle s = 0 := by rw [clippedByHandle, hstage]
      exact unspent_keep rfl (by rw [hstage]; rfl) (by rw [hstage]; rfl) rfl hclipped
  | pushBatch budget batch writeStatus hstage =>
      have hclipped : clippedByHandle s = 0 := by rw [clippedByHandle, hstage]
      exact unspent_keep rfl (by rw [hstage]; rfl) (by rw [hstage]; rfl) rfl hclipped
  | topUp budget writeStatus hstage =>
      simp only [unspent, payloadWritten, clippedByHandle, hstage, WriteSystem.topUp, clipped,
        HandleStage.budget, HandleStage.reserved, Option.getD_some, Option.getD_none]
      split_ifs with hpos
      · omega
      · omega
  | finish writeStatus hstage =>
      have hbudget : s.stage.budget = none := by rw [hstage]; rfl
      have hreserved : s.stage.reserved = 0 := by rw [hstage]; rfl
      have hclipped : clippedByHandle s = 0 := by rw [clippedByHandle, hstage]
      unfold WriteSystem.finish
      split_ifs
      · exact unspent_keep rfl hbudget.symm hreserved.symm rfl hclipped
      · exact unspent_keep rfl hbudget.symm hreserved.symm rfl hclipped
  | reschedule reason hstage =>
      have hbudget : s.stage.budget = none := by rw [hstage]; rfl
      have hreserved : s.stage.reserved = 0 := by rw [hstage]; rfl
      have hclipped : clippedByHandle s = 0 := by rw [clippedByHandle, hstage]
      unfold WriteSystem.reschedule
      dsimp only
      split_ifs
      · cases reason
        all_goals exact unspent_keep rfl hbudget.symm hreserved.symm rfl hclipped
      · exact unspent_keep rfl hbudget.symm hreserved.symm rfl hclipped

theorem demand_handle {maxBudget : ℕ} (h : BudgetInv maxBudget s) (hmax : maxBudget < counterSpace)
    {status : WriteStatus} {draw : ℕ} (hs : s.handle status draw = some s') :
    demand s' = demand s + clippedByHandle s ∧ offered s' = offered s := by
  obtain ⟨hwaiting, hoffered⟩ := waiting_handle hs
  have hunspent := unspent_handle h hmax hs
  refine ⟨?_, hoffered⟩
  unfold demand
  omega

/-- What the timer service does. -/
structure SameCredits (s s' : WriteSystem) : Prop where
  demand : demand s' = demand s
  offered : offered s' = offered s

theorem sameCredits_addTimer {id duration : ℕ} (hs : s.addTimer id duration = some s') :
    SameCredits s s' := by
  obtain ⟨-, rfl⟩ := addTimer_cases hs
  exact ⟨demand_congr rfl rfl rfl rfl, rfl⟩

theorem sameCredits_cancelTimer {id : ℕ} (hs : s.cancelTimer id = some s') : SameCredits s s' := by
  obtain ⟨-, rfl⟩ := cancelTimer_cases hs
  exact ⟨demand_congr rfl rfl rfl rfl, rfl⟩

theorem sameCredits_tick {elapsed : ℕ} (hs : s.tick elapsed = some s') : SameCredits s s' := by
  obtain ⟨-, rfl⟩ := tick_cases hs
  exact ⟨demand_congr rfl rfl rfl rfl, rfl⟩

theorem sameCredits_fire (hs : s.fire = some s') : SameCredits s s' := by
  obtain ⟨timer, firedTimers, -, ⟨-, rfl⟩ | ⟨-, rfl⟩⟩ := fire_cases hs
  · exact ⟨demand_congr rfl rfl rfl rfl, rfl⟩
  · exact ⟨demand_congr rfl rfl rfl rfl, rfl⟩

end WriteHandler

namespace ReliableCalls
open TransitionSystem WriteHandler

variable {s s' : ReliableSystem}

def SendStage.isRegistered : SendStage → Bool
  | .registered _ _ => true
  | .armed _ => true
  | _ => false

def FireCall.isSending : FireCall → Bool
  | .sending _ => true
  | _ => false

/-- The entries that have not brought their credit back. -/
def pledged (s : ReliableSystem) : ℕ :=
  s.messageEntries.buffer.length + (s.reading.bind ReadCall.taken).toList.length

def registeredCalls (calls : List SendCall) : ℕ := calls.countP fun call => call.stage.isRegistered

theorem registeredCalls_cons (call : SendCall) (calls : List SendCall) :
    registeredCalls (call :: calls) =
      registeredCalls calls + if call.stage.isRegistered then 1 else 0 :=
  List.countP_cons

theorem registeredCalls_erase {call : SendCall} {calls : List SendCall} (h : call ∈ calls) :
    registeredCalls calls =
      registeredCalls (calls.erase call) + if call.stage.isRegistered then 1 else 0 :=
  ((List.perm_cons_erase h).countP_eq _).trans List.countP_cons

def balance (s : ReliableSystem) : ℤ :=
  s.fairLoss.sendBudget.maxBudget + demand s.fairLoss - pledged s

def coming (s : ReliableSystem) : ℕ :=
  offered s.fairLoss + registeredCalls s.sends + s.firing.toList.countP FireCall.isSending

/-- What a step adds to the balance. -/
def rise (s : ReliableSystem) : ReliableLabel → ℤ
  | .write (.insertId linked) =>
      if linked.packet.id ∉ s.fairLoss.outgoingMessageIds ∧ PacketLinked.isPayload linked = true
      then 1 else 0
  | .write (.handle _ _) => clippedByHandle s.fairLoss
  | .advanceSend ⟨_, _, .numbered _ messageId⟩ =>
      if s.messageEntries.has messageId then 0 else -1
  | .advanceRead _ => match s.reading with
      | some (.crediting entry _) => clipped s.fairLoss.sendBudget entry.credits
      | _ => 0
  | .advanceFire _ => match s.firing with
      | some (.crediting _) => clipped s.fairLoss.sendBudget 1 - 1
      | _ => 0
  | _ => 0

/-- A step that adds to the balance does not take it above zero. -/
def KeepsCredits (s : ReliableSystem) (label : ReliableLabel) : Prop :=
  0 < rise s label → balance s + rise s label ≤ 0

/-- A call of `FairLossChannel::Send` drops no payload packet. -/
def KeepsPackets (s : ReliableSystem) : ReliableLabel → Prop
  | .write (.checkCap linked) =>
      ¬(outgoingMessageCap ≤ s.fairLoss.outgoingMessageIds.card ∧
        PacketLinked.isPayload linked = true)
  | .write (.insertId linked) =>
      ¬(linked.packet.id ∈ s.fairLoss.outgoingMessageIds ∧ PacketLinked.isPayload linked = true)
  | _ => True

/-- No message waits for an acknowledgement, the queue is empty and no handler runs. -/
structure Idle (s : ReliableSystem) : Prop where
  entries : s.messageEntries.buffer = []
  queue : s.fairLoss.outgoingPackets.stack = []
  writing : s.fairLoss.stage = .idle
  reading : s.reading = none

/-- Nor is a call of `Send` or of `Fire` under way. -/
structure AtRest (s : ReliableSystem) : Prop extends Idle s where
  sends : s.sends = []
  started : s.fairLoss.started = []
  checked : s.fairLoss.checked = []
  registered : s.fairLoss.registered = []
  firing : s.firing = none

/-- Every entry has one credit, and the packets that are sent again are payload packets. -/
structure CreditInv (s : ReliableSystem) : Prop where
  keys : (s.messageEntries.buffer.map (·.1)).Nodup
  single : ∀ e ∈ s.messageEntries.buffer, e.2.credits = 1
  taken : ∀ entry ∈ s.reading.bind ReadCall.taken, entry.credits = 1
  retryTimers : ∀ timer ∈ s.retryTimers, timer.packet.type = .payloadMessage
  firing : ∀ call ∈ s.firing, call.timer.packet.type = .payloadMessage

/-- What a step does to the credits. -/
structure CreditStep (s s' : ReliableSystem) (label : ReliableLabel) : Prop where
  balance : balance s' = balance s + rise s label
  coming : KeepsPackets s label → (coming s : ℤ) ≤ coming s' + rise s label
  inv : CreditInv s'

section Steps

variable (h : CreditInv s) {label : ReliableLabel}
include h

theorem CreditInv.creditStep
    (hmax : s'.fairLoss.sendBudget.maxBudget = s.fairLoss.sendBudget.maxBudget)
    (hdemand : demand s'.fairLoss = demand s.fairLoss + rise s label)
    (hentries : s'.messageEntries = s.messageEntries) (hreading : s'.reading = s.reading)
    (hcoming : KeepsPackets s label → (ReliableCalls.coming s : ℤ) ≤
      ReliableCalls.coming s' + rise s label)
    (hretryTimers : ∀ timer ∈ s'.retryTimers, timer.packet.type = .payloadMessage)
    (hfiring : ∀ call ∈ s'.firing, call.timer.packet.type = .payloadMessage) :
    CreditStep s s' label := by
  refine ⟨?_, hcoming, ?_, ?_, ?_, hretryTimers, hfiring⟩
  · have hpledged : pledged s' = pledged s := by rw [pledged, pledged, hentries, hreading]
    simp only [ReliableCalls.balance, hmax, hdemand, hpledged]
    omega
  · rw [hentries]
    exact h.keys
  · rw [hentries]
    exact h.single
  · rw [hreading]
    exact h.taken

theorem CreditInv.same
    (hmax : s'.fairLoss.sendBudget.maxBudget = s.fairLoss.sendBudget.maxBudget)
    (hcredits : SameCredits s.fairLoss s'.fairLoss) (hrise : rise s label = 0)
    (hentries : s'.messageEntries = s.messageEntries) (hreading : s'.reading = s.reading)
    (hsends : s'.sends = s.sends) (hfiring : s'.firing = s.firing)
    (hretryTimers : s'.retryTimers = s.retryTimers) : CreditStep s s' label := by
  apply h.creditStep hmax
  · rw [hcredits.demand, hrise, add_zero]
  · exact hentries
  · exact hreading
  · intro _
    rw [hrise, add_zero, ReliableCalls.coming, ReliableCalls.coming, hcredits.offered, hsends,
      hfiring]
  · rw [hretryTimers]
    exact h.retryTimers
  · rw [hfiring]
    exact h.firing

theorem CreditInv.register {contract : ℕ} {message : Bytes} {timerId : ℕ} {messageId : UInt32}
    (hcall : ⟨contract, message, .numbered timerId messageId⟩ ∈ s.sends) :
    CreditStep s { s with
        messageEntries := s.messageEntries.set messageId ⟨timerId, some contract, 1⟩
        sends := ⟨contract, message, .registered timerId messageId⟩ ::
          s.sends.erase ⟨contract, message, .numbered timerId messageId⟩ }
      (.advanceSend ⟨contract, message, .numbered timerId messageId⟩) := by
  have hcount := registeredCalls_erase hcall
  rw [if_neg (by simp [SendStage.isRegistered]), add_zero] at hcount
  have hcoming : ∀ entries, ReliableCalls.coming { s with
      messageEntries := entries
      sends := ⟨contract, message, .registered timerId messageId⟩ ::
        s.sends.erase ⟨contract, message, .numbered timerId messageId⟩ } =
      ReliableCalls.coming s + 1 := by
    intro entries
    simp only [ReliableCalls.coming, registeredCalls_cons, SendStage.isRegistered, if_true, hcount]
    omega
  cases hget : s.messageEntries.get messageId with
  | some entry =>
      -- `Set` keeps the old entry.
      have hrise : rise s (.advanceSend ⟨contract, message, .numbered timerId messageId⟩) = 0 := by
        simp [rise, MRMWUnorderedMap.has, hget]
      rw [MRMWUnorderedMap.set_of_get hget]
      apply h.creditStep
      · rfl
      · rw [hrise, add_zero]
      · rfl
      · rfl
      · intro _
        rw [hrise, hcoming]
        omega
      · exact h.retryTimers
      · exact h.firing
  | none =>
      have hrise : rise s (.advanceSend ⟨contract, message, .numbered timerId messageId⟩) =
          -1 := by
        simp [rise, MRMWUnorderedMap.has, hget]
      have hset := MRMWUnorderedMap.set_of_get_none hget
        (⟨timerId, some contract, 1⟩ : MessageEntry)
      refine ⟨?_, fun _ => ?_, ?_, ?_, h.taken, h.retryTimers, h.firing⟩
      · rw [hrise]
        simp only [ReliableCalls.balance, pledged, hset, List.length_append, List.length_singleton]
        omega
      · rw [hrise, hcoming]
        omega
      · exact MRMWUnorderedMap.nodup_set h.keys _
      · intro e he
        rw [hset] at he
        rcases List.mem_append.1 he with he | he
        · exact h.single e he
        · rw [List.mem_singleton.1 he]

theorem CreditInv.advanceSend {call : SendCall} (hs : s.advanceSend call = some s') :
    CreditStep s s' (.advanceSend call) := by
  obtain ⟨hcall, hsend⟩ := advanceSend_cases hs
  obtain ⟨contract, message, stage⟩ := call
  have hcount := registeredCalls_erase hcall
  dsimp only at hsend hcount
  cases hsend with
  | drawTimer =>
      apply h.creditStep
      · rfl
      · exact (demand_congr rfl rfl rfl rfl).trans (add_zero _).symm
      · rfl
      · rfl
      · intro _
        simp only [ReliableCalls.coming, registeredCalls_cons, hcount, rise, add_zero]
        exact le_rfl
      · exact h.retryTimers
      · exact h.firing
  | drawMessage timerId =>
      apply h.creditStep
      · rfl
      · exact (add_zero _).symm
      · rfl
      · rfl
      · intro _
        simp only [ReliableCalls.coming, registeredCalls_cons, hcount, rise, add_zero]
        exact le_rfl
      · exact h.retryTimers
      · exact h.firing
  | register timerId messageId => exact h.register hcall
  | arm timerId messageId hadd =>
      have hcredits := sameCredits_addTimer hadd
      obtain ⟨-, rfl⟩ := addTimer_cases hadd
      apply h.creditStep
      · rfl
      · exact hcredits.demand.trans (add_zero _).symm
      · rfl
      · rfl
      · intro _
        simp only [ReliableCalls.coming, registeredCalls_cons, hcount, rise, add_zero]
        exact le_rfl
      · intro timer htimer
        rcases List.mem_cons.1 htimer with rfl | htimer
        · rfl
        · exact h.retryTimers timer htimer
      · exact h.firing
  | doSend messageId =>
      apply h.creditStep
      · rfl
      · exact (demand_congr rfl rfl rfl rfl).trans (add_zero _).symm
      · rfl
      · rfl
      · intro _
        simp only [ReliableCalls.coming, offered_send, ReliableSystem.createPacket, hcount, rise,
          SendStage.isRegistered, if_true]
        omega
      · exact h.retryTimers
      · exact h.firing

theorem CreditInv.read {status : WriteStatus} {call : ReadCall} {fairLoss : WriteSystem}
    {reading : Option ReadCall} {messageIds : ℕ} (hreading : s.reading = some call)
    (htaken : reading.bind ReadCall.taken = call.taken)
    (hrise : rise s (.advanceRead status) = 0)
    (hmax : fairLoss.sendBudget.maxBudget = s.fairLoss.sendBudget.maxBudget)
    (hdemand : demand fairLoss = demand s.fairLoss)
    (hoffered : offered s.fairLoss ≤ offered fairLoss) :
    CreditStep s { s with fairLoss, messageIds, reading } (.advanceRead status) := by
  have hsame : reading.bind ReadCall.taken = s.reading.bind ReadCall.taken := by
    rw [htaken, hreading]
    rfl
  refine ⟨?_, fun _ => ?_, h.keys, h.single, ?_, h.retryTimers, h.firing⟩
  · rw [hrise, add_zero]
    simp only [ReliableCalls.balance, pledged, hsame, hmax, hdemand]
  · rw [hrise]
    simp only [ReliableCalls.coming]
    omega
  · rw [hsame]
    exact h.taken

theorem CreditInv.advanceRead {status : WriteStatus} (hs : s.advanceRead status = some s') :
    CreditStep s s' (.advanceRead status) := by
  obtain ⟨call, hreading, hread⟩ := advanceRead_cases hs
  have hrise : (∀ entry acks, call ≠ .crediting entry acks) →
      rise s (.advanceRead status) = 0 := by
    intro hcall
    rw [rise, hreading]
    split
    · rename_i entry acks he
      exact absurd (Option.some.inj he) (hcall entry acks)
    · rfl
  cases hread with
  | finish => exact h.read hreading rfl (hrise (by simp)) rfl rfl le_rfl
  | miss messageId acks hget => exact h.read hreading rfl (hrise (by simp)) rfl rfl le_rfl
  | acknowledge id htype => exact h.read hreading rfl (hrise (by simp)) rfl rfl le_rfl
  | writeAck packet =>
      apply h.read hreading _ (hrise (by simp)) rfl rfl le_rfl
      split_ifs <;> rfl
  | «return» linked hunderway => exact h.read hreading rfl (hrise (by simp)) rfl rfl le_rfl
  | take messageId acks hget =>
      have hperm := MRMWUnorderedMap.perm_take h.keys hget
      have hlength := hperm.length_eq
      rw [List.length_cons] at hlength
      refine ⟨?_, fun _ => ?_, MRMWUnorderedMap.nodup_take h.keys messageId, ?_, ?_,
        h.retryTimers, h.firing⟩
      · rw [hrise (by simp), add_zero]
        simp only [ReliableCalls.balance, pledged, hreading, hlength, Option.bind_some,
          ReadCall.taken, Option.toList_some, Option.toList_none, List.length_singleton,
          List.length_nil, add_zero]
      · rw [hrise (by simp), add_zero]
        exact le_rfl
      · exact fun e he => h.single e (List.mem_of_mem_filter he)
      · rintro _ ⟨⟩
        exact h.single _ (MRMWUnorderedMap.mem_of_get hget)
  | cancel entry acks hcancel =>
      have hcredits := sameCredits_cancelTimer hcancel
      obtain ⟨-, rfl⟩ := cancelTimer_cases hcancel
      exact h.read hreading rfl (hrise (by simp)) rfl hcredits.demand hcredits.offered.ge
  | queueAck packet =>
      have hoffered : offered s.fairLoss ≤ offered (s.fairLoss.send packet) := by
        rw [offered_send]
        exact Nat.le_add_right _ _
      exact h.read hreading rfl (hrise (by simp)) rfl (demand_congr rfl rfl rfl rfl) hoffered
  | credit entry acks =>
      have hone : entry.credits = 1 := h.taken entry (by rw [hreading]; rfl)
      have hcredit : rise s (.advanceRead status) = clipped s.fairLoss.sendBudget 1 := by
        rw [rise, hreading, ← hone]
      have hdemand := demand_addSendCredits s.fairLoss 1
      have hclipped := clipped_nonneg s.fairLoss.sendBudget 1
      refine ⟨?_, fun _ => ?_, h.keys, h.single, ?_, h.retryTimers, h.firing⟩
      · rw [hcredit, hone]
        simp only [ReliableCalls.balance, pledged, hreading, Option.bind_some, ReadCall.taken,
          Option.toList_some, Option.toList_none, List.length_singleton, List.length_nil]
        change (s.fairLoss.sendBudget.maxBudget : ℤ) +
          demand (s.fairLoss.addSendCredits 1) - _ = _
        rw [hdemand]
        simp only [UInt64.toNat_one]
        omega
      · rw [hcredit]
        simp only [ReliableCalls.coming]
        change ((offered s.fairLoss + _ + _ : ℕ) : ℤ) ≤ ((offered s.fairLoss + _ + _ : ℕ) : ℤ) + _
        omega
      · rintro _ ⟨⟩

theorem CreditInv.advanceFire {draw : ℕ} (hs : s.advanceFire draw = some s') :
    CreditStep s s' (.advanceFire draw) := by
  obtain ⟨call, hfiring, hfire⟩ := advanceFire_cases hs
  have hrise : (∀ timer, call ≠ .crediting timer) → rise s (.advanceFire draw) = 0 := by
    intro hcall
    rw [rise, hfiring]
    split
    · rename_i timer he
      exact absurd (Option.some.inj he) (hcall timer)
    · rfl
  cases hfire with
  | credit timer =>
      have hpacket := h.firing _ hfiring
      have hcredit : rise s (.advanceFire draw) = clipped s.fairLoss.sendBudget 1 - 1 := by
        rw [rise, hfiring]
      have hdemand := demand_addSendCredits s.fairLoss 1
      have hclipped := clipped_nonneg s.fairLoss.sendBudget 1
      apply h.creditStep
      · rfl
      · rw [hcredit]
        change demand (s.fairLoss.addSendCredits 1) = _
        rw [hdemand]
        simp only [UInt64.toNat_one]
        omega
      · rfl
      · rfl
      · intro _
        rw [hcredit]
        simp only [ReliableCalls.coming, hfiring, Option.toList_some, List.countP_singleton,
          FireCall.isSending, if_true]
        change ((offered s.fairLoss + _ + _ : ℕ) : ℤ) ≤ ((offered s.fairLoss + _ + _ : ℕ) : ℤ) + _
        simp only [Bool.false_eq_true, if_false]
        omega
      · exact h.retryTimers
      · rintro _ ⟨⟩
        exact hpacket
  | doSend timer =>
      have hpacket : timer.packet.type = .payloadMessage := h.firing _ hfiring
      apply h.creditStep
      · rfl
      · rw [hrise (by simp), add_zero]
        exact demand_congr rfl rfl rfl rfl
      · rfl
      · rfl
      · intro _
        rw [hrise (by simp)]
        simp only [ReliableCalls.coming, hfiring, Option.toList_some, List.countP_singleton,
          FireCall.isSending, offered_send, hpacket, if_true, Bool.false_eq_true, if_false]
        omega
      · exact h.retryTimers
      · rintro _ ⟨⟩
        exact hpacket
  | rearm timer linked hadd =>
      have hcredits := sameCredits_addTimer hadd
      have hpacket := h.firing _ hfiring
      obtain ⟨-, rfl⟩ := addTimer_cases hadd
      apply h.creditStep
      · rfl
      · rw [hrise (by simp), add_zero]
        exact hcredits.demand
      · rfl
      · rfl
      · intro _
        rw [hrise (by simp)]
        simp only [ReliableCalls.coming, hfiring, Option.toList_some, List.countP_singleton,
          FireCall.isSending, hcredits.offered]
        simp
      · intro timer' htimer
        rcases List.mem_cons.1 htimer with rfl | htimer
        · exact hpacket
        · exact h.retryTimers timer' htimer
      · rintro _ ⟨⟩
  | giveUp timer linked =>
      apply h.creditStep
      · rfl
      · rw [hrise (by simp), add_zero]
      · rfl
      · rfl
      · intro _
        rw [hrise (by simp)]
        simp only [ReliableCalls.coming, hfiring, Option.toList_some, List.countP_singleton,
          FireCall.isSending]
        simp
      · exact h.retryTimers
      · rintro _ ⟨⟩

theorem CreditInv.fire (hs : s.fire = some s') : CreditStep s s' .fire := by
  obtain ⟨hfiring, fairLoss, hfire, retryTimers, hsubset, fired, hfired, rfl⟩ := fire_cases hs
  have hcredits := sameCredits_fire hfire
  have hmax : fairLoss.sendBudget = s.fairLoss.sendBudget := by
    obtain ⟨timer, firedTimers, -, ⟨-, rfl⟩ | ⟨-, rfl⟩⟩ := WriteHandler.fire_cases hfire
    · rfl
    · rfl
  apply h.creditStep
  · rw [hmax]
  · exact hcredits.demand.trans (add_zero _).symm
  · rfl
  · rfl
  · intro _
    simp only [ReliableCalls.coming, hcredits.offered, hfiring, rise]
    simp
  · exact fun timer htimer => h.retryTimers timer (hsubset htimer)
  · intro call hcall
    obtain ⟨timer, htimer, rfl⟩ := Option.map_eq_some_iff.1 hcall
    exact h.retryTimers timer (hfired timer htimer)

theorem CreditInv.tick {elapsed : ℕ} (hs : s.tick elapsed = some s') :
    CreditStep s s' (.tick elapsed) := by
  obtain ⟨fairLoss, htick, retryTimers, hsubset, rfl⟩ := tick_cases hs
  have hcredits := sameCredits_tick htick
  obtain ⟨-, rfl⟩ := WriteHandler.tick_cases htick
  apply h.creditStep
  · rfl
  · exact hcredits.demand.trans (add_zero _).symm
  · rfl
  · rfl
  · intro _
    simp only [ReliableCalls.coming, hcredits.offered, rise, add_zero]
    exact le_rfl
  · exact fun timer htimer => h.retryTimers timer (hsubset htimer)
  · exact h.firing

theorem CreditInv.advanceWrite {maxBudget : ℕ} (hmax : maxBudget < counterSpace)
    (hbudget : BudgetInv maxBudget s.fairLoss) (hexclusive : Exclusive s.fairLoss)
    {label : WriteLabel} (hs : s.advanceWrite label = some s') :
    CreditStep s s' (.write label) := by
  obtain ⟨fairLoss, hstep, rfl⟩ := advanceWrite_cases hs
  have hmaxBudget : fairLoss.sendBudget.maxBudget = s.fairLoss.sendBudget.maxBudget :=
    (hbudget.step hexclusive hmax hstep).max.trans hbudget.max.symm
  suffices hcredits : demand fairLoss = demand s.fairLoss + rise s (.write label) ∧
      (KeepsPackets s (.write label) →
        (offered s.fairLoss : ℤ) ≤ offered fairLoss + rise s (.write label)) by
    apply h.creditStep
    · exact hmaxBudget
    · exact hcredits.1
    · rfl
    · rfl
    · intro hkeeps
      have hoffered := hcredits.2 hkeeps
      simp only [ReliableCalls.coming]
      omega
    · exact h.retryTimers
    · exact h.firing
  cases label with
  | checkCap linked =>
      obtain ⟨hdemand, -, hoffered⟩ := offered_checkCap hstep
      refine ⟨hdemand.trans (add_zero _).symm, fun hkeeps => ?_⟩
      rw [hoffered hkeeps]
      exact le_of_eq (add_zero _).symm
  | insertId linked =>
      obtain ⟨hdemand, hoffered⟩ := offered_insertId hstep
      refine ⟨hdemand, fun hkeeps => ?_⟩
      have := hoffered hkeeps
      simp only [rise]
      omega
  | push linked =>
      obtain ⟨hdemand, hoffered⟩ := demand_pushPacket hstep
      refine ⟨hdemand.trans (add_zero _).symm, fun _ => ?_⟩
      rw [hoffered]
      exact le_of_eq (add_zero _).symm
  | event type =>
      obtain ⟨hdemand, hoffered⟩ := demand_event hexclusive hstep
      refine ⟨hdemand.trans (add_zero _).symm, fun _ => ?_⟩
      rw [hoffered]
      exact le_of_eq (add_zero _).symm
  | handle status draw =>
      obtain ⟨hdemand, hoffered⟩ := demand_handle hbudget hmax hstep
      have hclipped := clippedByHandle_nonneg s.fairLoss
      refine ⟨hdemand, fun _ => ?_⟩
      rw [hoffered]
      exact le_add_of_nonneg_right hclipped
  | _ => cases hs

theorem CreditInv.step {maxBudget : ℕ} (hmax : maxBudget < counterSpace)
    (hbudget : BudgetInv maxBudget s.fairLoss) (hexclusive : Exclusive s.fairLoss)
    (hs : step s label = some s') : CreditStep s s' label := by
  cases label with
  | send message =>
      obtain rfl := Option.some.inj hs
      apply h.creditStep
      · rfl
      · exact (add_zero _).symm
      · rfl
      · rfl
      · intro _
        simp only [ReliableCalls.coming, ReliableSystem.send, registeredCalls_cons,
          SendStage.isRegistered, rise]
        simp
      · exact h.retryTimers
      · exact h.firing
  | advanceSend call => exact h.advanceSend hs
  | read datagram =>
      obtain ⟨hreading, hcases⟩ := read_cases hs
      have hnew : ∀ call : ReadCall, call.taken = none →
          CreditStep s { s with reading := some call } (.read datagram) := by
        intro call hcall
        have hsame : (some call).bind ReadCall.taken = s.reading.bind ReadCall.taken := by
          rw [hreading]
          exact hcall
        refine ⟨?_, fun _ => (add_zero _).ge, h.keys, h.single, ?_, h.retryTimers, h.firing⟩
        · simp only [ReliableCalls.balance, pledged, hsame, rise, add_zero]
        · rw [hsame]
          exact h.taken
      obtain ⟨acks, rfl⟩ | ⟨id, rfl⟩ := hcases
      · exact hnew _ rfl
      · exact hnew _ rfl
  | advanceRead status => exact h.advanceRead hs
  | tick elapsed => exact h.tick hs
  | fire => exact h.fire hs
  | advanceFire draw => exact h.advanceFire hs
  | write label => exact h.advanceWrite hmax hbudget hexclusive hs
  | otherMessageId =>
      obtain rfl := Option.some.inj hs
      exact h.same rfl ⟨rfl, rfl⟩ rfl rfl rfl rfl rfl rfl
  | otherTimerId =>
      obtain rfl := Option.some.inj hs
      exact h.same rfl ⟨demand_congr rfl rfl rfl rfl, rfl⟩ rfl rfl rfl rfl rfl rfl
  | otherAddTimer id duration =>
      simp only [ReliableCalls.step, ReliableSystem.otherAddTimer] at hs
      split_ifs at hs
      obtain ⟨fairLoss, hadd, rfl⟩ := Option.map_eq_some_iff.1 hs
      have hcredits := sameCredits_addTimer hadd
      obtain ⟨-, rfl⟩ := addTimer_cases hadd
      exact h.same rfl hcredits rfl rfl rfl rfl rfl rfl
  | otherCancelTimer id =>
      simp only [ReliableCalls.step, ReliableSystem.otherCancelTimer] at hs
      split_ifs at hs
      obtain ⟨fairLoss, hcancel, rfl⟩ := Option.map_eq_some_iff.1 hs
      have hcredits := sameCredits_cancelTimer hcancel
      obtain ⟨-, rfl⟩ := cancelTimer_cases hcancel
      exact h.same rfl hcredits rfl rfl rfl rfl rfl rfl

end Steps

def start (maxBudget : UInt64) (errorPolicy emptyWritePolicy : RetryPolicy) (tickDuration : ℕ)
    (localId : UInt8) (retryPolicy : RetryPolicy) : ReliableSystem :=
  initial (WriteHandler.initial maxBudget errorPolicy emptyWritePolicy tickDuration) localId
    retryPolicy

section Runs

variable {maxBudget : UInt64} {errorPolicy emptyWritePolicy : RetryPolicy} {tickDuration : ℕ}
  {localId : UInt8} {retryPolicy : RetryPolicy} {label : ReliableLabel}
  {ok : ReliableSystem → ReliableLabel → Prop}

theorem creditStep_of_reachable
    (hr : ReachableIn step ok (start maxBudget errorPolicy emptyWritePolicy tickDuration localId
      retryPolicy) s) (h : CreditInv s) (hs : step s label = some s') : CreditStep s s' label := by
  have hfairLoss := fairLoss_reachable hr
  exact h.step maxBudget.toNat_lt (budgetInv_of_reachable hfairLoss)
    (exclusive_of_reachable hfairLoss) hs

theorem creditInv_of_reachable
    (hr : ReachableIn step ok (start maxBudget errorPolicy emptyWritePolicy tickDuration localId
      retryPolicy) s) : CreditInv s := by
  apply hr.invariant
  · refine ⟨List.nodup_nil, ?_, ?_, ?_, ?_⟩
    · rintro _ ⟨⟩
    · rintro _ ⟨⟩
    · rintro _ ⟨⟩
    · rintro _ ⟨⟩
  · intro s label s' hr h _ hs
    exact (creditStep_of_reachable hr h hs).inv

/-- The balance of an idle channel is what its counter lacks and the packets that are accepted. -/
theorem Idle.balance_eq (h : Idle s) : balance s = s.fairLoss.sendBudget.maxBudget +
    s.fairLoss.registered.countP PacketLinked.isPayload - s.fairLoss.sendBudget.counter := by
  simp only [balance, pledged, demand, waiting, unspent, h.entries, h.queue, h.writing, h.reading]
  simp only [HandleStage.batch, HandleStage.budget, HandleStage.reserved, List.countP_nil,
    Option.getD_none, Option.bind_none, Option.toList_none, List.length_nil]
  omega

theorem balance_nonpos
    (hr : ReachableIn step KeepsCredits (start maxBudget errorPolicy emptyWritePolicy tickDuration
      localId retryPolicy) s) : balance s ≤ 0 := by
  apply hr.invariant
  · rw [Idle.balance_eq ⟨rfl, rfl, rfl, rfl⟩]
    exact le_of_eq (sub_self _)
  · intro s label s' hr h hok hs
    rw [(creditStep_of_reachable hr (creditInv_of_reachable hr) hs).balance]
    by_cases hrise : 0 < rise s label
    · exact hok hrise
    · omega

/-- What is not covered stays so, together with the packets on their way to the queue, as long as
none of them is dropped. -/
theorem uncovered_of_run
    (hr : Reachable step (start maxBudget errorPolicy emptyWritePolicy tickDuration localId
      retryPolicy) s) {t : ReliableSystem} (hrun : ReachableIn step KeepsPackets s t) :
    balance s + coming s ≤ balance t + coming t := by
  apply hrun.invariant (I := fun t => balance s + coming s ≤ balance t + coming t) le_rfl
  intro t label t' ht h hok hs
  have hr' := hr.trans ht.reachable
  have hstep := creditStep_of_reachable hr' (creditInv_of_reachable hr') hs
  have hcoming := hstep.coming hok
  rw [hstep.balance]
  omega

/-- If no step takes the balance above zero, an idle channel has its whole budget. After a step that
does, a channel at rest has less, as long as no packet is dropped. -/
theorem credits_conserved :
    (∀ s, ReachableIn step KeepsCredits (start maxBudget errorPolicy emptyWritePolicy tickDuration
        localId retryPolicy) s → Idle s → s.fairLoss.sendBudget.counter = maxBudget.toNat) ∧
    ∀ s label s' t, Reachable step (start maxBudget errorPolicy emptyWritePolicy tickDuration
        localId retryPolicy) s → ¬KeepsCredits s label → step s label = some s' →
      ReachableIn step KeepsPackets s' t → AtRest t →
      t.fairLoss.sendBudget.counter < maxBudget.toNat := by
  constructor
  · intro s hr hidle
    have hbudget := budgetInv_of_reachable (fairLoss_reachable hr)
    have hbalance := balance_nonpos hr
    have hcounter := hbudget.counter
    rw [hidle.balance_eq, hbudget.max] at hbalance
    omega
  · intro s label s' t hr hbroken hs hrun hrest
    have hr' := hr.tail trivial hs
    have hbudget := budgetInv_of_reachable (fairLoss_reachable (hr'.trans hrun.reachable))
    have huncovered := uncovered_of_run hr' hrun
    have hcoming : coming t = 0 := by
      simp [coming, offered, registeredCalls, hrest.started, hrest.checked, hrest.sends,
        hrest.firing]
    have hbalance := hrest.toIdle.balance_eq
    rw [hbudget.max, hrest.registered, List.countP_nil] at hbalance
    simp only [KeepsCredits, not_forall, not_le] at hbroken
    obtain ⟨-, hover⟩ := hbroken
    rw [← (creditStep_of_reachable hr (creditInv_of_reachable hr) hs).balance] at hover
    omega

end Runs

instance (s : ReliableSystem) (label : ReliableLabel) : Decidable (KeepsCredits s label) :=
  inferInstanceAs (Decidable (_ → _))

instance (s : ReliableSystem) : (label : ReliableLabel) → Decidable (KeepsPackets s label)
  | .write (.checkCap _) | .write (.insertId _) => inferInstanceAs (Decidable (¬_))
  | .write (.send _) | .write (.push _) | .write (.addSendCredits _) | .write (.event _)
  | .write (.handle _ _) | .write .getTimerID | .write (.addTimer _ _) | .write (.cancelTimer _)
  | .write (.tick _) | .write .fire | .send _ | .advanceSend _ | .read _ | .advanceRead _ | .tick _
  | .fire | .advanceFire _ | .otherMessageId | .otherTimerId | .otherAddTimer _ _
  | .otherCancelTimer _ => inferInstanceAs (Decidable True)

instance (s : ReliableSystem) : Decidable (Idle s) :=
  decidable_of_iff (s.messageEntries.buffer = [] ∧ s.fairLoss.outgoingPackets.stack = [] ∧
      s.fairLoss.stage = .idle ∧ s.reading = none)
    ⟨fun ⟨h₁, h₂, h₃, h₄⟩ => ⟨h₁, h₂, h₃, h₄⟩, fun ⟨h₁, h₂, h₃, h₄⟩ => ⟨h₁, h₂, h₃, h₄⟩⟩

instance (s : ReliableSystem) : Decidable (AtRest s) :=
  decidable_of_iff (Idle s ∧ s.sends = [] ∧ s.fairLoss.started = [] ∧ s.fairLoss.checked = [] ∧
      s.fairLoss.registered = [] ∧ s.firing = none)
    ⟨fun ⟨h, h₁, h₂, h₃, h₄, h₅⟩ => ⟨h, h₁, h₂, h₃, h₄, h₅⟩,
      fun h => ⟨h.toIdle, h.sends, h.started, h.checked, h.registered, h.firing⟩⟩

def retryingChannel : ReliableSystem :=
  start 200 ⟨100, 2, 1000, 100, false⟩ ⟨100, 2, 1000, 100, false⟩ 100 1 ⟨100, 2, 1000, 100, false⟩

def retriedPacket : Packet := ⟨.payloadMessage, 0, 1, [7]⟩

def queued (serial : ℕ) : List ReliableLabel :=
  [.write (.checkCap ⟨serial, retriedPacket⟩), .write (.insertId ⟨serial, retriedPacket⟩),
    .write (.push ⟨serial, retriedPacket⟩)]

def written : List ReliableLabel :=
  .write (.event .writeReady) :: List.replicate 9 (.write (.handle .ok 0))

def retriedMessage : List ReliableLabel :=
  [.send [7], .advanceSend ⟨0, [7], .started⟩, .advanceSend ⟨0, [7], .timed 0⟩,
      .advanceSend ⟨0, [7], .numbered 0 0⟩, .advanceSend ⟨0, [7], .registered 0 0⟩,
      .advanceSend ⟨0, [7], .armed 0⟩] ++
    queued 0 ++ written ++ [.tick 1, .fire, .advanceFire 0, .advanceFire 0] ++ queued 1 ++
    [.advanceFire 0]

def acknowledged : List ReliableLabel :=
  let ack : AckMessage := ⟨[0]⟩
  let packet : Packet := ⟨.ackMessage, 0, 2, ack.marshal (List.replicate ack.size 0)⟩
  [.read packet.datagram, .advanceRead .ok, .advanceRead .ok]

/-- The second copy is written before the acknowledgement of the first one arrives, or after it. -/
theorem credits_conserved_retried :
    (∃ s, ReachableIn step KeepsCredits retryingChannel s ∧ Idle s ∧
      s.fairLoss.sendBudget.counter = (200 : UInt64).toNat) ∧
    ∃ s s' t, Reachable step retryingChannel s ∧ ¬KeepsCredits s (.advanceRead .ok) ∧
      step s (.advanceRead .ok) = some s' ∧ ReachableIn step KeepsPackets s' t ∧ AtRest t ∧
      t.fairLoss.sendBudget.counter < (200 : UInt64).toNat := by
  constructor
  · obtain ⟨s, hr, hidle⟩ : ∃ s, ReachableIn step KeepsCredits retryingChannel s ∧ Idle s :=
      exists_reachableIn (retriedMessage ++ written ++ acknowledged ++
        [.advanceRead .ok, .advanceRead .ok]) (by decide +kernel)
    exact ⟨s, hr, hidle, credits_conserved.1 s hr hidle⟩
  · obtain ⟨s, hr, hbroken, hrest⟩ : ∃ s, Reachable step retryingChannel s ∧
        ¬KeepsCredits s (.advanceRead .ok) ∧
        ((step s (.advanceRead .ok)).any fun s' =>
          (runIn step (fun s label => decide (KeepsPackets s label)) s'
            (.advanceRead .ok :: written)).any fun t => decide (AtRest t)) = true :=
      exists_reachable (retriedMessage ++ acknowledged) (by decide +kernel)
    obtain ⟨s', hs, ht⟩ := (Option.any_eq_true _ _).1 hrest
    obtain ⟨t, hrun, hatRest⟩ := (Option.any_eq_true _ _).1 ht
    have hkept := ReachableIn.refl.runIn (fun _ _ h => of_decide_eq_true h) hrun
    have hatRest := of_decide_eq_true hatRest
    exact ⟨s, s', t, hr, hbroken, hs, hkept, hatRest,
      credits_conserved.2 s _ s' t hr hbroken hs hkept hatRest⟩

/-- The acknowledgement of the first copy arrives while the second one waits in the queue: the retry
has returned the credit already, so the acknowledgement returns nothing, and the credit that the
second copy spends is lost. -/
theorem credit_lost : ∃ s, Reachable step retryingChannel s ∧ AtRest s ∧
    s.fairLoss.firedTimers = [] ∧ s.fairLoss.sendBudget.counter = 199 ∧
    s.fairLoss.sendBudget.maxBudget = 200 :=
  exists_reachable (retriedMessage ++ acknowledged ++ [.advanceRead .ok, .advanceRead .ok] ++
    written) (by decide +kernel)

end ReliableCalls

end BroadcastService.Transport

import BroadcastService.WritePath

/-!
# The rate limit of a fair-loss channel

A credit is in the counter of `send_budget_`, in the budget of the running call of `Handle`, or
spent on a payload packet; it comes from the initial budget or from `AddSendCredits`. A top-up is
clipped, so credits may vanish but none appears (`BudgetInv`). Inside of a call the remaining budget
and what was spent add up to what `Credit` returned, so the subtraction never wraps.
-/

namespace BroadcastService.Transport.WriteHandler
open TransitionSystem

variable {s s' : WriteSystem}

/-- The budget of the running call, between `Credit` and `TopUp`. -/
def HandleStage.budget : HandleStage → Option ℕ
  | .credited budget => some budget
  | .emptyBatch budget => some budget
  | .looping budget _ _ => some budget
  | .spent budget _ _ => some budget
  | .wrote budget _ _ => some budget
  | .returning budget _ _ => some budget
  | .toppingUp budget _ => some budget
  | _ => none

def PacketLinked.isPayload (linked : PacketLinked) : Bool :=
  decide (linked.packet.type = .payloadMessage)

/-- What is spent for the packet that is about to be written. -/
def HandleStage.reserved : HandleStage → ℕ
  | .spent _ next _ => if PacketLinked.isPayload next then 1 else 0
  | _ => 0

def payloadWritten (s : WriteSystem) : ℕ := s.history.written.countP PacketLinked.isPayload

structure BudgetInv (maxBudget : ℕ) (s : WriteSystem) : Prop where
  max : s.sendBudget.maxBudget = maxBudget
  counter : s.sendBudget.counter ≤ maxBudget
  total : payloadWritten s + s.stage.reserved + s.stage.budget.getD 0 + s.sendBudget.counter ≤
    maxBudget + s.history.credits
  taken : s.history.taken ≤ maxBudget
  inHand : ∀ budget, s.stage.budget = some budget → budget + s.history.spent = s.history.taken
  paid : s.stage.reserved ≤ s.history.spent

theorem topUp_counter (budget : SharedBudget) (credit : ℕ) :
    (budget.topUp credit).counter ≤ budget.counter + credit ∧
      (budget.topUp credit).counter ≤ budget.maxBudget := by
  constructor
  · exact (Nat.min_le_left _ _).trans (Nat.mod_le _ _)
  · exact Nat.min_le_right _ _

section Steps

variable {maxBudget : ℕ} (h : BudgetInv maxBudget s)
include h

theorem BudgetInv.keep (hbudget : s'.sendBudget = s.sendBudget)
    (hstage : s'.stage.budget = s.stage.budget) (hreserved : s'.stage.reserved = s.stage.reserved)
    (hwritten : s'.history.written = s.history.written)
    (hhistory : s'.history.credits = s.history.credits ∧ s'.history.taken = s.history.taken ∧
      s'.history.spent = s.history.spent) : BudgetInv maxBudget s' := by
  obtain ⟨hcredits, htaken, hspent⟩ := hhistory
  refine ⟨?_, ?_, ?_, ?_, ?_, ?_⟩
  · rw [hbudget]
    exact h.max
  · rw [hbudget]
    exact h.counter
  · rw [payloadWritten, hwritten, hreserved, hstage, hbudget, hcredits]
    exact h.total
  · rw [htaken]
    exact h.taken
  · rw [hstage, hspent, htaken]
    exact h.inHand
  · rw [hreserved, hspent]
    exact h.paid

theorem BudgetInv.addSendCredits (credits : UInt64) :
    BudgetInv maxBudget (s.addSendCredits credits) := by
  obtain ⟨hle, hmax⟩ := topUp_counter s.sendBudget credits.toNat
  refine ⟨h.max, ?_, ?_, h.taken, h.inHand, h.paid⟩
  · rw [← h.max]
    exact hmax
  · have htotal := h.total
    simp only [WriteSystem.addSendCredits, payloadWritten] at htotal ⊢
    omega

/-- The end of the budget of a call: what is left of it goes back, if anything. -/
theorem BudgetInv.giveBack {budget : ℕ} (hbefore : s.stage.budget = some budget)
    (hreserved : s.stage.reserved = 0) (sendBudget : SharedBudget)
    (hcounter : sendBudget.counter ≤ s.sendBudget.counter + budget)
    (hmax : sendBudget.maxBudget = s.sendBudget.maxBudget)
    (hclipped : sendBudget.counter ≤ maxBudget) (stage : HandleStage)
    (hstage : stage.budget = none ∧ stage.reserved = 0) :
    BudgetInv maxBudget { s with sendBudget, stage } := by
  obtain ⟨hnone, hzero⟩ := hstage
  refine ⟨hmax.trans h.max, hclipped, ?_, h.taken, ?_, ?_⟩
  · have htotal := h.total
    rw [hbefore, hreserved, Option.getD_some] at htotal
    dsimp only
    rw [hnone, hzero, Option.getD_none]
    simp only [payloadWritten] at htotal ⊢
    omega
  · intro budget' hbudget'
    rw [hnone] at hbudget'
    cases hbudget'
  · dsimp only
    rw [hzero]
    exact Nat.zero_le _

theorem BudgetInv.credit (hmax : maxBudget < counterSpace) (hstage : s.stage = .entered) :
    BudgetInv maxBudget s.credit := by
  have hcounter := h.counter
  have hmin : min s.sendBudget.counter (counterSpace - 1) = s.sendBudget.counter := by omega
  have htotal := h.total
  rw [hstage] at htotal
  simp only [HandleStage.reserved, HandleStage.budget, Option.getD_none] at htotal
  have hcredit : s.credit = { s with
      sendBudget := ⟨0, s.sendBudget.maxBudget⟩
      stage := if s.sendBudget.counter = 0 then .rescheduling .emptyWrite
        else .credited s.sendBudget.counter
      history.taken := s.sendBudget.counter
      history.spent := 0 } := by
    simp only [WriteSystem.credit, SharedBudget.credit, hmin, Nat.sub_self]
  rw [hcredit]
  split_ifs with hzero
  · refine ⟨h.max, Nat.zero_le _, ?_, hcounter, ?_, Nat.zero_le _⟩
    · simp only [payloadWritten, HandleStage.reserved, HandleStage.budget, Option.getD_none]
        at htotal ⊢
      omega
    · intro budget hbudget
      cases hbudget
  · refine ⟨h.max, Nat.zero_le _, ?_, hcounter, ?_, Nat.zero_le _⟩
    · simp only [payloadWritten, HandleStage.reserved, HandleStage.budget, Option.getD_some]
        at htotal ⊢
      omega
    · intro budget hbudget
      obtain rfl := Option.some.inj hbudget
      rfl

/-- The difference does not wrap: the budget is positive and at most what `Credit` returned. -/
theorem BudgetInv.sub_messageSize (hmax : maxBudget < counterSpace) {budget : ℕ}
    (hbudget : s.stage.budget = some budget) (hrich : ¬budget < WriteSystem.messageSize) :
    (budget + counterSpace - WriteSystem.messageSize) % counterSpace = budget - 1 := by
  have hinHand := h.inHand budget hbudget
  have htaken := h.taken
  simp only [WriteSystem.messageSize] at hrich ⊢
  rw [show budget + counterSpace - 1 = budget - 1 + counterSpace by omega,
    Nat.add_mod_right, Nat.mod_eq_of_lt (by omega)]

theorem BudgetInv.add_messageSize (hmax : maxBudget < counterSpace) {budget : ℕ}
    {next : PacketLinked} {batch : List PacketLinked} (hstage : s.stage = .spent budget next batch)
    (hpayload : PacketLinked.isPayload next = true) :
    (budget + WriteSystem.messageSize) % counterSpace = budget + 1 := by
  have hinHand := h.inHand budget (by rw [hstage]; rfl)
  have htaken := h.taken
  have hpaid := h.paid
  rw [hstage, HandleStage.reserved, if_pos hpayload] at hpaid
  simp only [WriteSystem.messageSize]
  exact Nat.mod_eq_of_lt (by omega)

theorem BudgetInv.popFront (hmax : maxBudget < counterSpace) {budget : ℕ}
    {batch : List PacketLinked} {writeStatus : WriteStatus}
    (hstage : s.stage = .looping budget batch writeStatus) :
    BudgetInv maxBudget (s.popFront budget batch writeStatus) := by
  have hbudget : s.stage.budget = some budget := by rw [hstage]; rfl
  have hreserved : s.stage.reserved = 0 := by rw [hstage]; rfl
  unfold WriteSystem.popFront
  split
  · exact h.keep rfl hbudget.symm hreserved.symm rfl ⟨rfl, rfl, rfl⟩
  · rename_i next batch
    split_ifs with htype hpoor
    · exact h.keep rfl hbudget.symm hreserved.symm rfl ⟨rfl, rfl, rfl⟩
    · have hinHand := h.inHand budget hbudget
      have hexact := h.sub_messageSize hmax hbudget hpoor
      have hpayload : PacketLinked.isPayload next = true := decide_eq_true htype
      have htotal := h.total
      rw [hbudget, hreserved, Option.getD_some] at htotal
      rw [hexact]
      simp only [WriteSystem.messageSize] at hpoor ⊢
      refine ⟨h.max, h.counter, ?_, h.taken, ?_, ?_⟩
      · simp only [payloadWritten, HandleStage.reserved, hpayload, if_true, HandleStage.budget,
          Option.getD_some] at htotal ⊢
        omega
      · intro budget' hbudget'
        obtain rfl := Option.some.inj hbudget'
        dsimp only
        omega
      · simp only [HandleStage.reserved, hpayload, if_true]
        omega
    · have hack : PacketLinked.isPayload next = false := decide_eq_false htype
      have hsame : (HandleStage.spent budget next batch).reserved = s.stage.reserved := by
        rw [hreserved, HandleStage.reserved, hack]
        rfl
      exact h.keep rfl hbudget.symm hsame rfl ⟨rfl, rfl, rfl⟩

theorem BudgetInv.write (hmax : maxBudget < counterSpace) {budget : ℕ} {next : PacketLinked}
    {batch : List PacketLinked} (status : WriteStatus)
    (hstage : s.stage = .spent budget next batch) :
    BudgetInv maxBudget (s.write budget next batch status) := by
  have hbudget : s.stage.budget = some budget := by rw [hstage]; rfl
  have hreserved : s.stage.reserved = if PacketLinked.isPayload next then 1 else 0 := by
    rw [hstage]
    rfl
  have htotal := h.total
  rw [hbudget, hreserved, Option.getD_some] at htotal
  have hinHand := h.inHand budget hbudget
  unfold WriteSystem.write
  split_ifs with hok htype
  · refine ⟨h.max, h.counter, ?_, h.taken, ?_, Nat.zero_le _⟩
    · simp only [payloadWritten, List.countP_cons, HandleStage.reserved, HandleStage.budget,
        Option.getD_some] at htotal ⊢
      omega
    · intro budget' hbudget'
      obtain rfl := Option.some.inj hbudget'
      exact hinHand
  · have hpayload : PacketLinked.isPayload next = true := decide_eq_true htype
    have hpaid := h.paid
    rw [hreserved, if_pos hpayload] at hpaid
    have hexact := h.add_messageSize hmax hstage hpayload
    rw [if_pos hpayload] at htotal
    rw [hexact]
    simp only [WriteSystem.messageSize]
    refine ⟨h.max, h.counter, ?_, h.taken, ?_, Nat.zero_le _⟩
    · simp only [payloadWritten, HandleStage.reserved, HandleStage.budget, Option.getD_some]
        at htotal ⊢
      omega
    · intro budget' hbudget'
      obtain rfl := Option.some.inj hbudget'
      dsimp only
      omega
  · have hack : PacketLinked.isPayload next = false := decide_eq_false htype
    have hsame : 0 = s.stage.reserved := by
      rw [hreserved, hack]
      rfl
    exact h.keep rfl hbudget.symm hsame rfl ⟨rfl, rfl, rfl⟩

theorem BudgetInv.topUp {budget : ℕ} {writeStatus : WriteStatus}
    (hstage : s.stage = .toppingUp budget writeStatus) :
    BudgetInv maxBudget (s.topUp budget writeStatus) := by
  have hbudget : s.stage.budget = some budget := by rw [hstage]; rfl
  have hreserved : s.stage.reserved = 0 := by rw [hstage]; rfl
  obtain ⟨hle, hclipped⟩ := topUp_counter s.sendBudget budget
  rw [h.max] at hclipped
  unfold WriteSystem.topUp
  split_ifs
  · exact h.giveBack hbudget hreserved _ hle rfl hclipped _ ⟨rfl, rfl⟩
  · exact h.giveBack hbudget hreserved _ (Nat.le_add_right _ _) rfl h.counter _ ⟨rfl, rfl⟩

theorem BudgetInv.reschedule {reason : RetryReason} (draw : ℕ)
    (hstage : s.stage = .rescheduling reason) : BudgetInv maxBudget (s.reschedule reason draw) := by
  have hbudget : s.stage.budget = none := by rw [hstage]; rfl
  have hreserved : s.stage.reserved = 0 := by rw [hstage]; rfl
  unfold WriteSystem.reschedule
  dsimp only
  split_ifs
  · cases reason
    · exact h.keep rfl hbudget.symm hreserved.symm rfl ⟨rfl, rfl, rfl⟩
    · exact h.keep rfl hbudget.symm hreserved.symm rfl ⟨rfl, rfl, rfl⟩
  · exact h.keep rfl hbudget.symm hreserved.symm rfl ⟨rfl, rfl, rfl⟩

theorem BudgetInv.handle (hmax : maxBudget < counterSpace) {status : WriteStatus} {draw : ℕ}
    (hs : s.handle status draw = some s') : BudgetInv maxBudget s' := by
  cases handle_cases hs with
  | credit hstage => exact h.credit hmax hstage
  | tryPopAll budget hstage =>
      have hbudget : s.stage.budget = some budget := by rw [hstage]; rfl
      have hreserved : s.stage.reserved = 0 := by rw [hstage]; rfl
      unfold WriteSystem.tryPopAll
      dsimp only
      split_ifs
      · exact h.keep rfl hbudget.symm hreserved.symm rfl ⟨rfl, rfl, rfl⟩
      · exact h.keep rfl hbudget.symm hreserved.symm rfl ⟨rfl, rfl, rfl⟩
  | returnBudget budget hstage =>
      obtain ⟨hle, hclipped⟩ := topUp_counter s.sendBudget budget
      rw [h.max] at hclipped
      have hbudget : s.stage.budget = some budget := by rw [hstage]; rfl
      have hreserved : s.stage.reserved = 0 := by rw [hstage]; rfl
      exact h.giveBack hbudget hreserved _ hle rfl hclipped _ ⟨rfl, rfl⟩
  | popFront budget batch writeStatus hstage => exact h.popFront hmax hstage
  | write budget next batch hstage => exact h.write hmax status hstage
  | deleteId budget next batch hstage =>
      exact h.keep rfl (by rw [hstage]; rfl) (by rw [hstage]; rfl) rfl ⟨rfl, rfl, rfl⟩
  | pushBatch budget batch writeStatus hstage =>
      exact h.keep rfl (by rw [hstage]; rfl) (by rw [hstage]; rfl) rfl ⟨rfl, rfl, rfl⟩
  | topUp budget writeStatus hstage => exact h.topUp hstage
  | finish writeStatus hstage =>
      have hbudget : s.stage.budget = none := by rw [hstage]; rfl
      have hreserved : s.stage.reserved = 0 := by rw [hstage]; rfl
      unfold WriteSystem.finish
      split_ifs
      · exact h.keep rfl hbudget.symm hreserved.symm rfl ⟨rfl, rfl, rfl⟩
      · exact h.keep rfl hbudget.symm hreserved.symm rfl ⟨rfl, rfl, rfl⟩
  | reschedule reason hstage => exact h.reschedule draw hstage

end Steps

theorem BudgetInv.event {maxBudget : ℕ} (h : BudgetInv maxBudget s) (hexclusive : Exclusive s)
    {type : EventType} (hs : s.event type = some s') : BudgetInv maxBudget s' := by
  obtain ⟨harmed, hcases⟩ := event_cases hs
  have hidle := hexclusive.idle_of_armed harmed
  have hbudget : s.stage.budget = none := by rw [hidle]; rfl
  have hreserved : s.stage.reserved = 0 := by rw [hidle]; rfl
  obtain rfl | rfl := hcases
  · exact h.keep rfl hbudget.symm hreserved.symm rfl ⟨rfl, rfl, rfl⟩
  · exact h.keep rfl hbudget.symm hreserved.symm rfl ⟨rfl, rfl, rfl⟩

theorem BudgetInv.step {maxBudget : ℕ} (h : BudgetInv maxBudget s) (hexclusive : Exclusive s)
    (hmax : maxBudget < counterSpace) {label : WriteLabel}
    (hs : WriteHandler.step s label = some s') : BudgetInv maxBudget s' := by
  cases label with
  | send packet =>
      obtain rfl := Option.some.inj hs
      exact h.keep rfl rfl rfl rfl ⟨rfl, rfl, rfl⟩
  | checkCap linked =>
      obtain ⟨-, rfl | rfl⟩ := checkCap_cases hs
      · exact h.keep rfl rfl rfl rfl ⟨rfl, rfl, rfl⟩
      · exact h.keep rfl rfl rfl rfl ⟨rfl, rfl, rfl⟩
  | insertId linked =>
      obtain ⟨-, rfl | ⟨-, rfl⟩⟩ := insertId_cases hs
      · exact h.keep rfl rfl rfl rfl ⟨rfl, rfl, rfl⟩
      · exact h.keep rfl rfl rfl rfl ⟨rfl, rfl, rfl⟩
  | push linked =>
      obtain ⟨-, rfl⟩ := pushPacket_cases hs
      exact h.keep rfl rfl rfl rfl ⟨rfl, rfl, rfl⟩
  | addSendCredits credits =>
      obtain rfl := Option.some.inj hs
      exact h.addSendCredits credits
  | event type => exact h.event hexclusive hs
  | handle status draw => exact h.handle hmax hs
  | getTimerID =>
      obtain rfl := Option.some.inj hs
      exact h.keep rfl rfl rfl rfl ⟨rfl, rfl, rfl⟩
  | addTimer id duration =>
      obtain ⟨-, rfl⟩ := addTimer_cases hs
      exact h.keep rfl rfl rfl rfl ⟨rfl, rfl, rfl⟩
  | cancelTimer id =>
      obtain ⟨-, rfl⟩ := cancelTimer_cases hs
      exact h.keep rfl rfl rfl rfl ⟨rfl, rfl, rfl⟩
  | tick elapsed =>
      obtain ⟨-, rfl⟩ := tick_cases hs
      exact h.keep rfl rfl rfl rfl ⟨rfl, rfl, rfl⟩
  | fire =>
      obtain ⟨timer, firedTimers, -, ⟨-, rfl⟩ | ⟨-, rfl⟩⟩ := fire_cases hs
      · exact h.keep rfl rfl rfl rfl ⟨rfl, rfl, rfl⟩
      · exact h.keep rfl rfl rfl rfl ⟨rfl, rfl, rfl⟩

theorem BudgetInv.start (maxBudget : UInt64) (errorPolicy emptyWritePolicy : RetryPolicy)
    (tickDuration : ℕ) : BudgetInv maxBudget.toNat
      (initial maxBudget errorPolicy emptyWritePolicy tickDuration) := by
  refine ⟨rfl, le_rfl, ?_, Nat.zero_le _, ?_, le_rfl⟩
  · simp [payloadWritten, initial, HandleStage.reserved, HandleStage.budget]
  · intro budget hbudget
    cases hbudget

theorem budgetInv_of_reachable {maxBudget : UInt64} {errorPolicy emptyWritePolicy : RetryPolicy}
    {tickDuration : ℕ} (hr : Reachable WriteHandler.step
      (initial maxBudget errorPolicy emptyWritePolicy tickDuration) s) :
    BudgetInv maxBudget.toNat s := by
  apply hr.invariant (BudgetInv.start maxBudget errorPolicy emptyWritePolicy tickDuration)
  intro s label s' hs h _ hstep
  exact h.step (exclusive_of_reachable hs) maxBudget.toNat_lt hstep

/-- At most `max_budget` payload packets, and one for each credit, are written. The budget of a call
is what `Credit` returned less what the call has spent, and the counter is at most `max_budget`. -/
theorem rate_limit {maxBudget : UInt64} {errorPolicy emptyWritePolicy : RetryPolicy}
    {tickDuration : ℕ} (hr : Reachable WriteHandler.step
      (initial maxBudget errorPolicy emptyWritePolicy tickDuration) s) :
    payloadWritten s ≤ maxBudget.toNat + s.history.credits ∧
    (∀ budget, s.stage.budget = some budget → budget + s.history.spent = s.history.taken) ∧
    s.sendBudget.counter ≤ maxBudget.toNat := by
  have h := budgetInv_of_reachable hr
  have htotal := h.total
  exact ⟨by omega, h.inHand, h.counter⟩

/-- With a budget of one packet, the second of two packets is returned to the queue. Its write after
a credit would block and gives the credit back. -/
def limitedWrites (packet : UInt32 → Packet) : List WriteLabel :=
  let send (serial : ℕ) (id : UInt32) : List WriteLabel :=
    [.send (packet id), .checkCap ⟨serial, packet id⟩, .insertId ⟨serial, packet id⟩,
      .push ⟨serial, packet id⟩]
  send 0 4 ++ send 1 5 ++ [.event .writeReady] ++ List.replicate 9 (.handle .ok 0) ++
    [.addSendCredits 1, .event .writeReady] ++ List.replicate 4 (.handle .wouldBlock 0)

theorem rate_limit_limitedWrites : ∃ s, Reachable WriteHandler.step
      (initial 1 ⟨100, 2, 1000, 100, false⟩ ⟨100, 2, 1000, 100, false⟩ 100) s ∧
    payloadWritten s = 1 ∧ s.stage.budget = some 1 ∧ s.history.credits = 1 ∧
    payloadWritten s ≤ (1 : UInt64).toNat + s.history.credits ∧
    (∀ budget, s.stage.budget = some budget → budget + s.history.spent = s.history.taken) ∧
    s.sendBudget.counter ≤ (1 : UInt64).toNat := by
  obtain ⟨s, hr, hwritten, hbudget, hcredits⟩ : ∃ s, Reachable WriteHandler.step
        (initial 1 ⟨100, 2, 1000, 100, false⟩ ⟨100, 2, 1000, 100, false⟩ 100) s ∧
      payloadWritten s = 1 ∧ s.stage.budget = some 1 ∧ s.history.credits = 1 :=
    exists_reachable (limitedWrites fun id => ⟨.payloadMessage, id, 1, [7]⟩) (by decide +kernel)
  exact ⟨s, hr, hwritten, hbudget, hcredits, rate_limit hr⟩

end BroadcastService.Transport.WriteHandler

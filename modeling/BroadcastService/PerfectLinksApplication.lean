import BroadcastService.Payload

/-!
# The perfect links application

`RunAsSender` and the callback of `RunAsReceiver` of `applications/perfect_links.hpp`. The sender
packs eight sequence numbers into a transport message and tests the bound once for each message. So
it always logs and sends a multiple of eight numbers, which is `num_messages` only if that is one
(`sender_sends`).

The transport answers every `Send` with a future; `completed` tells which of them get a value, by
their number. A result of `none` stands for a call that does not return.
-/

namespace BroadcastService.Applications

inductive LogLine
  | b (sequenceNumber : UInt32)
  | d (sender : UInt8) (sequenceNumber : UInt32)
  deriving DecidableEq

structure PerfectLinksMessage where
  sequenceNumber : List UInt32
  size_eq : sequenceNumber.length = 8
  deriving DecidableEq

namespace PerfectLinksMessage

def marshal (message : PerfectLinksMessage) : Bytes :=
  binaryMarshalArrayType 4 (message.sequenceNumber.map UInt32.toNat)

/-- The assert is that of a buffer of 32 bytes. -/
def unmarshal (bytes : Bytes) : Option PerfectLinksMessage :=
  (binaryUnmarshalArrayType 4 8 bytes).bind fun (values, _) =>
    if h : (values.map UInt32.ofNat).length = 8 then some ⟨values.map UInt32.ofNat, h⟩ else none

theorem unmarshal_marshal (message : PerfectLinksMessage) :
    unmarshal message.marshal = some message := by
  obtain ⟨numbers, hsize⟩ := message
  have harray := unmarshal_marshalUInt32s numbers []
  rw [hsize, List.append_nil] at harray
  simp only [unmarshal, marshal, harray, Option.bind_some, map_ofNat_toNat, hsize, dite_true]

end PerfectLinksMessage

structure RunConfig where
  numMessages : UInt32
  receiverProcess : UInt32

/-- `sent` are the calls of `Send` and `output` the lines of the log, both in order. -/
structure Sender where
  currentPayload : UInt32 := 1
  sent : List (UInt8 × Bytes) := []
  output : List LogLine := []

namespace Sender

def batchSize : ℕ := 30000

def nextMessage (sender : Sender) : PerfectLinksMessage where
  sequenceNumber :=
    (List.range 8).map fun payloadIdx => sender.currentPayload + UInt32.ofNat payloadIdx
  size_eq := by simp

def sendNext (config : RunConfig) (sender : Sender) : Sender where
  currentPayload := sender.currentPayload + 8
  sent := sender.sent ++ [(config.receiverProcess.toUInt8, sender.nextMessage.marshal)]
  output := sender.output ++ sender.nextMessage.sequenceNumber.map .b

def sendBatch (config : RunConfig) : ℕ → Sender → Sender
  | 0, sender => sender
  | left + 1, sender =>
      if sender.currentPayload ≤ config.numMessages then
        sendBatch config left (sender.sendNext config)
      else sender

/-- `All(acks).Get()` has a value: there are futures, as is asserted, and each of them has one. -/
def allHaveValues (completed : ℕ → Bool) (first last : ℕ) : Bool :=
  decide (first < last) && (List.range' first (last - first)).all completed

/-- `RunAsSender`, from the start of the outer loop on. -/
def runAsSender (config : RunConfig) (completed : ℕ → Bool) : ℕ → Sender → Option Sender
  | 0, _ => none
  | fuel + 1, sender =>
      if sender.currentPayload ≤ config.numMessages then
        let sender' := sendBatch config batchSize sender
        if allHaveValues completed sender.sent.length sender'.sent.length then
          runAsSender config completed fuel sender'
        else none
      else some sender

end Sender

def receive (src : UInt8) (bytes : Bytes) : Option (List LogLine) :=
  (PerfectLinksMessage.unmarshal bytes).map fun message => message.sequenceNumber.map (.d src)

def receiverOutput : List (UInt8 × Bytes) → Option (List LogLine)
  | [] => some []
  | (src, bytes) :: deliveries =>
      (receive src bytes).bind fun lines => (receiverOutput deliveries).map (lines ++ ·)

namespace Sender

variable {config : RunConfig}

def messages (config : RunConfig) : ℕ := (config.numMessages.toNat + 7) / 8

def after (config : RunConfig) (count : ℕ) : Sender := (sendNext config)^[count] {}

theorem after_succ (count : ℕ) :
    after config (count + 1) = (after config count).sendNext config :=
  Function.iterate_succ_apply' ..

theorem currentPayload_after (count : ℕ) :
    (after config count).currentPayload = UInt32.ofNat (8 * count + 1) := by
  induction count with
  | zero => rfl
  | succ count ih =>
      rw [after_succ, sendNext, ih, Nat.mul_succ, Nat.add_right_comm]
      exact (UInt32.ofNat_add (8 * count + 1) 8).symm

theorem length_sent_after (count : ℕ) : (after config count).sent.length = count := by
  induction count with
  | zero => rfl
  | succ count ih => rw [after_succ, sendNext, List.length_append, ih, List.length_singleton]

theorem currentPayload_le_iff (hm : config.numMessages.toNat + 8 < 2 ^ 32) {count : ℕ}
    (hcount : count ≤ messages config) :
    (after config count).currentPayload ≤ config.numMessages ↔ count < messages config := by
  have hlt : 8 * count + 1 < 2 ^ 32 := by
    rw [messages] at hcount
    omega
  rw [currentPayload_after, UInt32.le_iff_toNat_le, UInt32.toNat_ofNat_of_lt' hlt, messages]
  omega

theorem sendBatch_after (hm : config.numMessages.toNat + 8 < 2 ^ 32) (left : ℕ) {count : ℕ}
    (hcount : count ≤ messages config) :
    sendBatch config left (after config count) =
      after config (min (count + left) (messages config)) := by
  induction left generalizing count with
  | zero => rw [sendBatch, Nat.add_zero, Nat.min_eq_left hcount]
  | succ left ih =>
      have htest := currentPayload_le_iff hm hcount
      rw [sendBatch]
      split_ifs with hle
      · rw [← after_succ, ih (htest.1 hle), Nat.succ_add, Nat.add_succ]
      · have hlast : count = messages config := by
          have := mt htest.2 hle
          omega
        rw [Nat.min_eq_right (by omega), hlast]

/-- The sender returns after all messages were sent: every batch sends at least one. -/
theorem runAsSender_after (hm : config.numMessages.toNat + 8 < 2 ^ 32) {completed : ℕ → Bool}
    (hcompleted : ∀ i, completed i = true) (fuel : ℕ) {count : ℕ}
    (hcount : count ≤ messages config) (hfuel : messages config < count + fuel) :
    runAsSender config completed fuel (after config count) =
      some (after config (messages config)) := by
  induction fuel generalizing count with
  | zero => omega
  | succ fuel ih =>
      have htest := currentPayload_le_iff hm hcount
      rw [runAsSender]
      split_ifs with hle
      · have hlt := htest.1 hle
        have hbatch : batchSize = 30000 := rfl
        have hvalues : allHaveValues completed count
            (min (count + batchSize) (messages config)) = true := by
          rw [allHaveValues, Bool.and_eq_true, decide_eq_true_eq, List.all_eq_true]
          exact ⟨by omega, fun i _ => hcompleted i⟩
        simp only [sendBatch_after hm batchSize hcount, length_sent_after, hvalues, if_true]
        exact ih (by omega) (by omega)
      · have hlast : count = messages config := by
          have := mt htest.2 hle
          omega
        rw [hlast]

theorem nextMessage_after (count : ℕ) :
    (after config count).nextMessage.sequenceNumber =
      (List.range' (8 * count + 1) 8).map UInt32.ofNat := by
  rw [nextMessage, currentPayload_after, List.range'_eq_map_range, List.map_map]
  apply List.map_congr_left
  intro payloadIdx _
  exact (UInt32.ofNat_add _ _).symm

theorem range_succ_message (count : ℕ) :
    List.range' 1 (8 * (count + 1)) =
      List.range' 1 (8 * count) ++ List.range' (8 * count + 1) 8 := by
  rw [Nat.mul_succ, ← List.range'_append_1, Nat.add_comm 1]

theorem output_after (count : ℕ) :
    (after config count).output =
      ((List.range' 1 (8 * count)).map UInt32.ofNat).map .b := by
  induction count with
  | zero => rfl
  | succ count ih =>
      rw [after_succ, sendNext, ih, nextMessage_after, ← List.map_append, ← List.map_append,
        ← range_succ_message]

def numbers (bytes : Bytes) : List UInt32 :=
  ((PerfectLinksMessage.unmarshal bytes).map (·.sequenceNumber)).getD []

theorem numbers_sent_after (count : ℕ) :
    ((after config count).sent.map Prod.snd).flatMap numbers =
      (List.range' 1 (8 * count)).map UInt32.ofNat := by
  induction count with
  | zero => rfl
  | succ count ih =>
      have hlast : numbers (after config count).nextMessage.marshal =
          (List.range' (8 * count + 1) 8).map UInt32.ofNat := by
        rw [numbers, PerfectLinksMessage.unmarshal_marshal]
        exact nextMessage_after count
      rw [after_succ, sendNext, List.map_append, List.flatMap_append, ih, List.map_singleton,
        List.flatMap_singleton, hlast, ← List.map_append, ← range_succ_message]

end Sender

/-- The number of a line about a message of `src`. -/
def LogLine.deliveredFrom (src : UInt8) : LogLine → Option UInt32
  | .d sender sequenceNumber => if sender = src then some sequenceNumber else none
  | .b _ => none

theorem deliveredFrom_receive {src sender : UInt8} {bytes : Bytes} {lines : List LogLine}
    (h : receive sender bytes = some lines) :
    lines.filterMap (LogLine.deliveredFrom src) =
      if sender = src then Sender.numbers bytes else [] := by
  obtain ⟨message, hmessage, rfl⟩ := Option.map_eq_some_iff.1 h
  rw [List.filterMap_map, Sender.numbers, hmessage]
  by_cases hsrc : sender = src
  · simp [hsrc, LogLine.deliveredFrom]
  · simp [hsrc, Function.comp_def, LogLine.deliveredFrom]

/-- The receiver logs the numbers of the messages of a sender in the order of their delivery. -/
theorem deliveredFrom_receiverOutput {src : UInt8} {deliveries : List (UInt8 × Bytes)}
    {lines : List LogLine} (h : receiverOutput deliveries = some lines) :
    lines.filterMap (LogLine.deliveredFrom src) =
      ((deliveries.filter fun delivery => delivery.1 = src).map Prod.snd).flatMap
        Sender.numbers := by
  induction deliveries generalizing lines with
  | nil =>
      obtain rfl := Option.some.inj h
      rfl
  | cons delivery deliveries ih =>
      obtain ⟨sender, bytes⟩ := delivery
      obtain ⟨first, hfirst, h⟩ := Option.bind_eq_some_iff.1 h
      obtain ⟨rest, hrest, rfl⟩ := Option.map_eq_some_iff.1 h
      rw [List.filterMap_append, deliveredFrom_receive hfirst, ih hrest]
      by_cases hsrc : sender = src
      · simp [hsrc]
      · simp [hsrc]

def expected (config : RunConfig) : List UInt32 :=
  (List.range' 1 config.numMessages.toNat).map UInt32.ofNat

/-- The sender has sent and logged `1, …, m`, and a receiver that gets each of its messages once,
in any order and among those of others, logs these numbers for it. -/
structure SendsExpected (config : RunConfig) (sender : Sender) : Prop where
  sent : (sender.sent.map Prod.snd).flatMap Sender.numbers = expected config
  logged : sender.output = (expected config).map .b
  received : ∀ (src : UInt8) (deliveries : List (UInt8 × Bytes)) (lines : List LogLine),
    ((deliveries.filter fun delivery => delivery.1 = src).map Prod.snd).Perm
      (sender.sent.map Prod.snd) →
    receiverOutput deliveries = some lines →
    (lines.filterMap (LogLine.deliveredFrom src)).Perm (expected config)

theorem sender_sends {config : RunConfig} (hm : config.numMessages.toNat + 8 < 2 ^ 32)
    {completed : ℕ → Bool} (hcompleted : ∀ i, completed i = true) :
    ∃ sender bound, (∀ fuel, bound ≤ fuel →
        Sender.runAsSender config completed fuel {} = some sender) ∧
      (SendsExpected config sender ↔ 8 ∣ config.numMessages.toNat) := by
  refine ⟨Sender.after config (Sender.messages config), Sender.messages config + 1, ?_, ?_⟩
  · intro fuel hfuel
    exact Sender.runAsSender_after hm hcompleted fuel (Nat.zero_le _) (by omega)
  · have hsent := @Sender.numbers_sent_after config (Sender.messages config)
    have hmessages : 8 * Sender.messages config = config.numMessages.toNat ↔
        8 ∣ config.numMessages.toNat := by
      rw [Sender.messages]
      omega
    rw [← hmessages]
    constructor
    · intro h
      have hlength := congrArg List.length (hsent.symm.trans h.sent)
      simpa [expected] using hlength
    · intro hall
      rw [hall] at hsent
      refine ⟨hsent, ?_, ?_⟩
      · rw [Sender.output_after, hall, expected]
      · intro src deliveries lines hperm houtput
        rw [deliveredFrom_receiverOutput houtput, expected, ← hsent]
        exact hperm.flatMap_right _

theorem sender_sends_sixteen :
    ∃ sender bound, (∀ fuel, bound ≤ fuel →
        Sender.runAsSender ⟨16, 2⟩ (fun _ => true) fuel {} = some sender) ∧
      SendsExpected ⟨16, 2⟩ sender := by
  have hm : (⟨16, 2⟩ : RunConfig).numMessages.toNat + 8 < 2 ^ 32 := by decide
  obtain ⟨sender, bound, hrun, hexpected⟩ := sender_sends hm fun _ => rfl
  exact ⟨sender, bound, hrun, hexpected.2 (by decide)⟩

/-- Asked for one message, the sender sends and logs eight. -/
theorem sender_overshoots :
    ∃ sender, Sender.runAsSender ⟨1, 2⟩ (fun _ => true) 2 {} = some sender ∧
      sender.output = ([1, 2, 3, 4, 5, 6, 7, 8] : List UInt32).map .b ∧
      ¬SendsExpected ⟨1, 2⟩ sender := by
  have hm : (⟨1, 2⟩ : RunConfig).numMessages.toNat + 8 < 2 ^ 32 := by decide
  have hmessages : Sender.messages ⟨1, 2⟩ = 1 := by decide
  have hrun := Sender.runAsSender_after hm (fun _ => rfl) 2 (Nat.zero_le _) (by omega)
  rw [hmessages] at hrun
  have houtput := @Sender.output_after ⟨1, 2⟩ 1
  refine ⟨_, hrun, houtput, ?_⟩
  intro h
  exact absurd (houtput.symm.trans h.logged) (by decide)

end BroadcastService.Applications

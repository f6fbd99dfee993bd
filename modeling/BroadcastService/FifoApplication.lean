import BroadcastService.PerfectLinksApplication

/-!
# The FIFO application

`RunAsBroadcaster` of `applications/fifo.hpp` and the rate limiter of its send loop. The broadcaster
packs up to eight payloads into a message; the slots that it leaves are zero, and the callback skips
them. So the last message may be a partial one, although the counter advances by eight for it too.

The broadcaster and the callback write to one file. Their lines mix in any order
(`Interleaved`). As in the perfect links application `completed` tells which futures get a value,
and a result of `none` stands for a call that does not return.
-/

namespace BroadcastService.Applications

structure FIFOMessage where
  messages : List UInt32
  size_eq : messages.length = 8

namespace FIFOMessage

def marshal (message : FIFOMessage) : Bytes :=
  binaryMarshalArrayType 4 (message.messages.map UInt32.toNat)

/-- The assert is that of a buffer of 32 bytes. -/
def unmarshal (bytes : Bytes) : Option FIFOMessage :=
  (binaryUnmarshalArrayType 4 8 bytes).bind fun (values, _) =>
    if h : (values.map UInt32.ofNat).length = 8 then some ⟨values.map UInt32.ofNat, h⟩ else none

theorem unmarshal_marshal (message : FIFOMessage) :
    unmarshal message.marshal = some message := by
  obtain ⟨payloads, hsize⟩ := message
  have harray := unmarshal_marshalUInt32s payloads []
  rw [hsize, List.append_nil] at harray
  simp only [unmarshal, marshal, harray, Option.bind_some, map_ofNat_toNat, hsize, dite_true]

def payloads (message : FIFOMessage) : List UInt32 := message.messages.filter (· ≠ 0)

end FIFOMessage

def payloadsOf (bytes : Bytes) : List UInt32 :=
  ((FIFOMessage.unmarshal bytes).map FIFOMessage.payloads).getD []

structure UniformReliableBroadcastRateLimiter where
  batchSize : ℕ
  currentFire : ℕ := 0
  batchSize_pos : 0 < batchSize
  currentFire_le : currentFire ≤ batchSize := by omega

namespace UniformReliableBroadcastRateLimiter

/-- The divisor is the number of packets that one broadcast generates, which is zero, so that the
division fails, for a single process. -/
def make (networkSize linkPacketLimit : ℕ) (_hnetwork : 2 ≤ networkSize) :
    UniformReliableBroadcastRateLimiter where
  batchSize := max 1 (linkPacketLimit / (networkSize * (networkSize - 1)))
  batchSize_pos := by omega

def fire (limiter : UniformReliableBroadcastRateLimiter) :
    Option UniformReliableBroadcastRateLimiter :=
  if h : limiter.currentFire = limiter.batchSize then none
  else some { limiter with
    currentFire := limiter.currentFire + 1
    currentFire_le := by have := limiter.currentFire_le; omega }

def reset (limiter : UniformReliableBroadcastRateLimiter) :
    UniformReliableBroadcastRateLimiter :=
  { limiter with currentFire := 0, currentFire_le := Nat.zero_le _ }

def left (limiter : UniformReliableBroadcastRateLimiter) : ℕ :=
  limiter.batchSize - limiter.currentFire

variable {limiter limiter' : UniformReliableBroadcastRateLimiter}

theorem fire_eq_none_iff : limiter.fire = none ↔ limiter.left = 0 := by
  have hle := limiter.currentFire_le
  rw [fire, left]
  split_ifs with h
  · simp [h]
  · simp only [false_iff]
    omega

theorem left_of_fire (h : limiter.fire = some limiter') : limiter.left = limiter'.left + 1 := by
  have hle := limiter.currentFire_le
  rw [fire] at h
  split_ifs at h with hspent
  obtain rfl := Option.some.inj h
  simp only [left]
  omega

end UniformReliableBroadcastRateLimiter

open UniformReliableBroadcastRateLimiter

/-- `broadcasts` are the calls of `Broadcast` and `output` the lines that the send loop logs. -/
structure Broadcaster where
  currentPayload : UInt32 := 1
  broadcasts : List Bytes := []
  output : List LogLine := []

namespace Broadcaster

/-- The loop over the slots stops at the first payload above the bound. -/
def nextPayloads (numMessages : UInt32) (broadcaster : Broadcaster) : List UInt32 :=
  ((List.range 8).map fun payloadIdx =>
    broadcaster.currentPayload + UInt32.ofNat payloadIdx).takeWhile (· ≤ numMessages)

theorem length_nextPayloads_le (numMessages : UInt32) (broadcaster : Broadcaster) :
    (broadcaster.nextPayloads numMessages).length ≤ 8 := by
  refine (List.takeWhile_prefix _).length_le.trans ?_
  simp

def nextMessage (numMessages : UInt32) (broadcaster : Broadcaster) : FIFOMessage where
  messages := broadcaster.nextPayloads numMessages ++
    List.replicate (8 - (broadcaster.nextPayloads numMessages).length) 0
  size_eq := by
    have := length_nextPayloads_le numMessages broadcaster
    rw [List.length_append, List.length_replicate]
    omega

def broadcastNext (numMessages : UInt32) (broadcaster : Broadcaster) : Broadcaster where
  currentPayload := broadcaster.currentPayload + 8
  broadcasts := broadcaster.broadcasts ++ [(broadcaster.nextMessage numMessages).marshal]
  output := broadcaster.output ++ (broadcaster.nextPayloads numMessages).map .b

/-- The loop over a batch. The limiter is asked first: it also loses a call of `Fire` to the test
that ends the loop. -/
def broadcastBatch (numMessages : UInt32) (broadcaster : Broadcaster)
    (limiter : UniformReliableBroadcastRateLimiter) :
    Broadcaster × UniformReliableBroadcastRateLimiter :=
  match _h : limiter.fire with
  | none => (broadcaster, limiter)
  | some limiter' =>
      if broadcaster.currentPayload ≤ numMessages then
        broadcastBatch numMessages (broadcaster.broadcastNext numMessages) limiter'
      else (broadcaster, limiter')
termination_by limiter.left
decreasing_by
  have := left_of_fire _h
  omega

/-- `RunAsBroadcaster`, from the start of the outer loop to the start of the event loop. -/
def runAsBroadcaster (numMessages : UInt32) (completed : ℕ → Bool) :
    ℕ → Broadcaster → UniformReliableBroadcastRateLimiter → Option Broadcaster
  | 0, _, _ => none
  | fuel + 1, broadcaster, limiter =>
      if broadcaster.currentPayload ≤ numMessages then
        let (broadcaster', limiter') := broadcastBatch numMessages broadcaster limiter
        if Sender.allHaveValues completed broadcaster.broadcasts.length
            broadcaster'.broadcasts.length then
          runAsBroadcaster numMessages completed fuel broadcaster' limiter'.reset
        else none
      else some broadcaster

end Broadcaster

def deliver (peer : UInt8) (bytes : Bytes) : Option (List LogLine) :=
  (FIFOMessage.unmarshal bytes).map fun message => message.payloads.map (.d peer)

def deliveredOutput : List (UInt8 × Bytes) → Option (List LogLine)
  | [] => some []
  | (peer, bytes) :: deliveries =>
      (deliver peer bytes).bind fun lines => (deliveredOutput deliveries).map (lines ++ ·)

/-- The third list is a mix of the first two that keeps the order of each. -/
inductive Interleaved {α : Type*} : List α → List α → List α → Prop
  | nil : Interleaved [] [] []
  | left {as bs cs : List α} (a : α) : Interleaved as bs cs → Interleaved (a :: as) bs (a :: cs)
  | right {as bs cs : List α} (b : α) : Interleaved as bs cs → Interleaved as (b :: bs) (b :: cs)

theorem Interleaved.symm {α : Type*} {as bs cs : List α} (h : Interleaved as bs cs) :
    Interleaved bs as cs := by
  induction h with
  | nil => exact .nil
  | left a _ ih => exact .right a ih
  | right b _ ih => exact .left b ih

theorem Interleaved.filterMap_eq {α β : Type*} {f : α → Option β} {as bs cs : List α}
    (h : Interleaved as bs cs) (hbs : ∀ b ∈ bs, f b = none) :
    cs.filterMap f = as.filterMap f := by
  induction h with
  | nil => rfl
  | left a _ ih => rw [List.filterMap_cons, List.filterMap_cons, ih hbs]
  | right b _ ih =>
      rw [List.filterMap_cons, hbs b List.mem_cons_self]
      exact ih fun b' hb' => hbs b' (List.mem_cons_of_mem b hb')

theorem takeWhile_range_le (numMessages : UInt32) (first count : ℕ)
    (hlt : first + count ≤ 2 ^ 32) :
    ((List.range' first count).map UInt32.ofNat).takeWhile (· ≤ numMessages) =
      (List.range' first (min count (numMessages.toNat + 1 - first))).map UInt32.ofNat := by
  induction count generalizing first with
  | zero => simp
  | succ count ih =>
      have htest : UInt32.ofNat first ≤ numMessages ↔ first ≤ numMessages.toNat := by
        have hsize : first < UInt32.size := by
          rw [UInt32.size]
          omega
        rw [UInt32.le_iff_toNat_le, UInt32.toNat_ofNat_of_lt' hsize]
      rw [List.range'_succ, List.map_cons, List.takeWhile_cons]
      by_cases hle : first ≤ numMessages.toNat
      · rw [if_pos (decide_eq_true (htest.2 hle)), ih (first + 1) (by omega)]
        have hmin : min (count + 1) (numMessages.toNat + 1 - first) =
            min count (numMessages.toNat + 1 - (first + 1)) + 1 := by omega
        rw [hmin, List.range'_succ, List.map_cons]
      · rw [if_neg (by simpa using mt htest.1 hle)]
        have hmin : min (count + 1) (numMessages.toNat + 1 - first) = 0 := by omega
        rw [hmin, List.range'_zero, List.map_nil]

theorem ofNat_ne_zero_of_range {first count : ℕ} (hpos : 0 < first)
    (hlt : first + count ≤ 2 ^ 32) :
    ∀ payload ∈ (List.range' first count).map UInt32.ofNat, payload ≠ 0 := by
  intro payload hpayload hzero
  obtain ⟨i, hi, rfl⟩ := List.mem_map.1 hpayload
  have hrange := List.mem_range'_1.1 hi
  have hsize : i < UInt32.size := by
    rw [UInt32.size]
    omega
  have hnat := congrArg UInt32.toNat hzero
  rw [UInt32.toNat_ofNat_of_lt' hsize, UInt32.toNat_zero] at hnat
  omega

theorem payloads_padded {payloads zeros : List UInt32} {size_eq}
    (hpayloads : ∀ payload ∈ payloads, payload ≠ 0) (hzeros : ∀ zero ∈ zeros, zero = 0) :
    (FIFOMessage.mk (payloads ++ zeros) size_eq).payloads = payloads := by
  have hkept : payloads.filter (· ≠ 0) = payloads :=
    List.filter_eq_self.2 fun payload h => by simpa using hpayloads payload h
  have hskipped : zeros.filter (· ≠ 0) = [] :=
    List.filter_eq_nil_iff.2 fun zero h => by simpa using hzeros zero h
  rw [FIFOMessage.payloads, List.filter_append, hkept, hskipped, List.append_nil]

namespace Broadcaster

variable {numMessages : UInt32}

def messages (numMessages : UInt32) : ℕ := (numMessages.toNat + 7) / 8

def after (numMessages : UInt32) (count : ℕ) : Broadcaster := (broadcastNext numMessages)^[count] {}

theorem after_succ (count : ℕ) :
    after numMessages (count + 1) = (after numMessages count).broadcastNext numMessages :=
  Function.iterate_succ_apply' ..

theorem currentPayload_after (count : ℕ) :
    (after numMessages count).currentPayload = UInt32.ofNat (8 * count + 1) := by
  induction count with
  | zero => rfl
  | succ count ih =>
      rw [after_succ, broadcastNext, ih, Nat.mul_succ, Nat.add_right_comm]
      exact (UInt32.ofNat_add (8 * count + 1) 8).symm

theorem length_broadcasts_after (count : ℕ) :
    (after numMessages count).broadcasts.length = count := by
  induction count with
  | zero => rfl
  | succ count ih =>
      rw [after_succ, broadcastNext, List.length_append, ih, List.length_singleton]

/-- The test of both loops: the counter stays below `2 ^ 32` even after the last message. -/
theorem currentPayload_le_iff (hm : numMessages.toNat + 7 < 2 ^ 32) {count : ℕ}
    (hcount : count ≤ messages numMessages) :
    (after numMessages count).currentPayload ≤ numMessages ↔ count < messages numMessages := by
  have hlt : 8 * count + 1 < 2 ^ 32 := by
    rw [messages] at hcount
    omega
  rw [currentPayload_after, UInt32.le_iff_toNat_le, UInt32.toNat_ofNat_of_lt' hlt, messages]
  omega

theorem broadcastBatch_after (hm : numMessages.toNat + 7 < 2 ^ 32) (left : ℕ) {count : ℕ}
    {limiter : UniformReliableBroadcastRateLimiter} (hleft : limiter.left = left)
    (hcount : count ≤ messages numMessages) :
    (broadcastBatch numMessages (after numMessages count) limiter).1 =
      after numMessages (min (count + left) (messages numMessages)) := by
  induction left generalizing count limiter with
  | zero =>
      rw [broadcastBatch, Nat.add_zero, Nat.min_eq_left hcount]
      split
      · rfl
      · next limiter' hfire =>
          have := left_of_fire hfire
          omega
  | succ left ih =>
      have htest := currentPayload_le_iff hm hcount
      rw [broadcastBatch]
      split
      · next hfire =>
          have := fire_eq_none_iff.1 hfire
          omega
      · next limiter' hfire =>
          have hleft' := left_of_fire hfire
          split_ifs with hle
          · rw [← after_succ, ih (by omega) (htest.1 hle), Nat.succ_add, Nat.add_succ]
          · have hlast : count = messages numMessages := by
              have := mt htest.2 hle
              omega
            rw [Nat.min_eq_right (by omega), hlast]

/-- The send loop ends after all messages were broadcast: every batch has at least one. -/
theorem runAsBroadcaster_after (hm : numMessages.toNat + 7 < 2 ^ 32) {completed : ℕ → Bool}
    (hcompleted : ∀ i, completed i = true) (fuel : ℕ) {count : ℕ}
    {limiter : UniformReliableBroadcastRateLimiter} (hlimiter : limiter.currentFire = 0)
    (hcount : count ≤ messages numMessages) (hfuel : messages numMessages < count + fuel) :
    runAsBroadcaster numMessages completed fuel (after numMessages count) limiter =
      some (after numMessages (messages numMessages)) := by
  induction fuel generalizing count limiter with
  | zero => omega
  | succ fuel ih =>
      have htest := currentPayload_le_iff hm hcount
      rw [runAsBroadcaster]
      split_ifs with hle
      · have hlt := htest.1 hle
        have hpos : 0 < limiter.left := by
          rw [left, hlimiter]
          exact limiter.batchSize_pos
        have hbatch := broadcastBatch_after hm limiter.left rfl hcount
        have hvalues : Sender.allHaveValues completed count
            (min (count + limiter.left) (messages numMessages)) = true := by
          rw [Sender.allHaveValues, Bool.and_eq_true, decide_eq_true_eq, List.all_eq_true]
          exact ⟨by omega, fun i _ => hcompleted i⟩
        simp only [hbatch, length_broadcasts_after, hvalues, if_true]
        exact ih rfl (by omega) (by omega)
      · have hlast : count = messages numMessages := by
          have := mt htest.2 hle
          omega
        rw [hlast]

theorem nextPayloads_after (hm : numMessages.toNat + 7 < 2 ^ 32) {count : ℕ}
    (hcount : count < messages numMessages) :
    (after numMessages count).nextPayloads numMessages =
      (List.range' (8 * count + 1) (min 8 (numMessages.toNat - 8 * count))).map UInt32.ofNat := by
  have hslots : ((List.range 8).map fun payloadIdx =>
      (after numMessages count).currentPayload + UInt32.ofNat payloadIdx) =
      (List.range' (8 * count + 1) 8).map UInt32.ofNat := by
    rw [currentPayload_after, List.range'_eq_map_range, List.map_map]
    apply List.map_congr_left
    intro payloadIdx _
    exact (UInt32.ofNat_add _ _).symm
  have hlt : 8 * count + 1 + 8 ≤ 2 ^ 32 := by
    rw [messages] at hcount
    omega
  rw [nextPayloads, hslots, takeWhile_range_le numMessages _ _ hlt, Nat.add_sub_add_right]

theorem payloadsOf_nextMessage (hm : numMessages.toNat + 7 < 2 ^ 32) {count : ℕ}
    (hcount : count < messages numMessages) :
    payloadsOf ((after numMessages count).nextMessage numMessages).marshal =
      (after numMessages count).nextPayloads numMessages := by
  have hlt : 8 * count + 1 + min 8 (numMessages.toNat - 8 * count) ≤ 2 ^ 32 := by
    rw [messages] at hcount
    omega
  rw [payloadsOf, FIFOMessage.unmarshal_marshal]
  refine payloads_padded ?_ fun zero h => List.eq_of_mem_replicate h
  rw [nextPayloads_after hm hcount]
  exact ofNat_ne_zero_of_range (Nat.succ_pos _) hlt

theorem range_succ_payloads {m : ℕ} (count : ℕ) :
    List.range' 1 (min (8 * (count + 1)) m) =
      List.range' 1 (min (8 * count) m) ++ List.range' (8 * count + 1) (min 8 (m - 8 * count)) := by
  by_cases hle : 8 * count ≤ m
  · have hmin : min (8 * (count + 1)) m = 8 * count + min 8 (m - 8 * count) := by omega
    rw [hmin, Nat.min_eq_left hle, ← List.range'_append_1, Nat.add_comm 1]
  · have hnone : m - 8 * count = 0 := by omega
    rw [hnone, Nat.min_eq_right (by omega), Nat.min_eq_right (by omega), Nat.min_zero,
      List.range'_zero, List.append_nil]

theorem output_after (hm : numMessages.toNat + 7 < 2 ^ 32) {count : ℕ}
    (hcount : count ≤ messages numMessages) :
    (after numMessages count).output =
      ((List.range' 1 (min (8 * count) numMessages.toNat)).map UInt32.ofNat).map .b := by
  induction count with
  | zero => simp [after]
  | succ count ih =>
      rw [after_succ, broadcastNext, ih (Nat.le_of_succ_le hcount), nextPayloads_after hm hcount,
        ← List.map_append, ← List.map_append, ← range_succ_payloads]

theorem payloadsOf_broadcasts_after (hm : numMessages.toNat + 7 < 2 ^ 32) {count : ℕ}
    (hcount : count ≤ messages numMessages) :
    (after numMessages count).broadcasts.flatMap payloadsOf =
      (List.range' 1 (min (8 * count) numMessages.toNat)).map UInt32.ofNat := by
  induction count with
  | zero => simp [after]
  | succ count ih =>
      rw [after_succ, broadcastNext, List.flatMap_append, ih (Nat.le_of_succ_le hcount),
        List.flatMap_singleton, payloadsOf_nextMessage hm hcount, nextPayloads_after hm hcount,
        ← List.map_append, ← range_succ_payloads]

theorem take_broadcasts_after {count last : ℕ} (hle : count ≤ last) :
    (after numMessages last).broadcasts.take count = (after numMessages count).broadcasts := by
  induction last, hle using Nat.le_induction with
  | base =>
      have hlength := @length_broadcasts_after numMessages count
      exact List.take_of_length_le hlength.le
  | succ last hle ih =>
      have hlength := @length_broadcasts_after numMessages last
      rw [after_succ, broadcastNext, List.take_append_of_le_length (by omega), ih]

end Broadcaster

def LogLine.broadcastPayload : LogLine → Option UInt32
  | .b payload => some payload
  | .d _ _ => none

theorem filterMap_map_b (payloads : List UInt32) :
    (payloads.map LogLine.b).filterMap LogLine.broadcastPayload = payloads := by
  rw [List.filterMap_map]
  exact List.filterMap_some

theorem deliveredFrom_map_b (src : UInt8) (payloads : List UInt32) :
    (payloads.map LogLine.b).filterMap (LogLine.deliveredFrom src) = [] := by
  rw [List.filterMap_map]
  exact List.filterMap_eq_nil_iff.2 fun _ _ => rfl

theorem deliveredFrom_deliver {src peer : UInt8} {bytes : Bytes} {lines : List LogLine}
    (h : deliver peer bytes = some lines) :
    lines.filterMap (LogLine.deliveredFrom src) =
      if peer = src then payloadsOf bytes else [] := by
  obtain ⟨message, hmessage, rfl⟩ := Option.map_eq_some_iff.1 h
  rw [List.filterMap_map, payloadsOf, hmessage]
  by_cases hsrc : peer = src
  · simp [hsrc, LogLine.deliveredFrom]
  · simp [hsrc, Function.comp_def, LogLine.deliveredFrom]

/-- The callback logs the payloads of the messages of a source in the order of their delivery. -/
theorem deliveredFrom_deliveredOutput {src : UInt8} {deliveries : List (UInt8 × Bytes)}
    {lines : List LogLine} (h : deliveredOutput deliveries = some lines) :
    lines.filterMap (LogLine.deliveredFrom src) =
      ((deliveries.filter fun delivery => delivery.1 = src).map Prod.snd).flatMap payloadsOf := by
  induction deliveries generalizing lines with
  | nil =>
      obtain rfl := Option.some.inj h
      rfl
  | cons delivery deliveries ih =>
      obtain ⟨peer, bytes⟩ := delivery
      obtain ⟨first, hfirst, h⟩ := Option.bind_eq_some_iff.1 h
      obtain ⟨rest, hrest, rfl⟩ := Option.map_eq_some_iff.1 h
      rw [List.filterMap_append, deliveredFrom_deliver hfirst, ih hrest]
      by_cases hsrc : peer = src
      · simp [hsrc]
      · simp [hsrc]

theorem broadcastPayload_deliveredOutput {deliveries : List (UInt8 × Bytes)}
    {lines : List LogLine} (h : deliveredOutput deliveries = some lines) :
    ∀ line ∈ lines, line.broadcastPayload = none := by
  induction deliveries generalizing lines with
  | nil =>
      obtain rfl := Option.some.inj h
      simp
  | cons delivery deliveries ih =>
      obtain ⟨first, hfirst, h⟩ := Option.bind_eq_some_iff.1 h
      obtain ⟨rest, hrest, rfl⟩ := Option.map_eq_some_iff.1 h
      obtain ⟨message, -, rfl⟩ := Option.map_eq_some_iff.1 hfirst
      intro line hline
      rcases List.mem_append.1 hline with hline | hline
      · obtain ⟨payload, -, rfl⟩ := List.mem_map.1 hline
        rfl
      · exact ih hrest line hline

def expectedPayloads (numMessages : UInt32) : List UInt32 :=
  (List.range' 1 numMessages.toNat).map UInt32.ofNat

/-- The broadcaster has broadcast and logged `1, …, m`, whatever the callback of its process logs in
between. And whenever a process delivers some first messages of the broadcaster, in their order and
among those of others, it logs `1, …, j` for it. -/
structure LogsExpected (numMessages : UInt32) (broadcaster : Broadcaster) : Prop where
  broadcast : broadcaster.broadcasts.flatMap payloadsOf = expectedPayloads numMessages
  logged : ∀ (deliveries : List (UInt8 × Bytes)) (lines output : List LogLine),
    deliveredOutput deliveries = some lines →
    Interleaved broadcaster.output lines output →
    output.filterMap LogLine.broadcastPayload = expectedPayloads numMessages
  delivered : ∀ (src : UInt8) (deliveries : List (UInt8 × Bytes)) (own : List UInt32)
      (lines output : List LogLine),
    (deliveries.filter fun delivery => delivery.1 = src).map Prod.snd <+:
      broadcaster.broadcasts →
    deliveredOutput deliveries = some lines →
    Interleaved (own.map .b) lines output →
    ∃ j ≤ numMessages.toNat,
      output.filterMap (LogLine.deliveredFrom src) = (List.range' 1 j).map UInt32.ofNat

theorem runAsBroadcaster_logs {numMessages : UInt32} (hm : numMessages.toNat + 7 < 2 ^ 32)
    {limiter : UniformReliableBroadcastRateLimiter} (hlimiter : limiter.currentFire = 0)
    {completed : ℕ → Bool} (hcompleted : ∀ i, completed i = true) :
    ∃ broadcaster bound, (∀ fuel, bound ≤ fuel →
        Broadcaster.runAsBroadcaster numMessages completed fuel {} limiter = some broadcaster) ∧
      LogsExpected numMessages broadcaster := by
  refine ⟨Broadcaster.after numMessages (Broadcaster.messages numMessages),
    Broadcaster.messages numMessages + 1, ?_, ?_⟩
  · intro fuel hfuel
    exact Broadcaster.runAsBroadcaster_after hm hcompleted fuel hlimiter (Nat.zero_le _) (by omega)
  · have hall : min (8 * Broadcaster.messages numMessages) numMessages.toNat =
        numMessages.toNat := by
      rw [Broadcaster.messages]
      omega
    have hbroadcast := Broadcaster.payloadsOf_broadcasts_after hm (le_refl _)
    have houtput := Broadcaster.output_after hm (le_refl _)
    rw [hall] at hbroadcast houtput
    refine ⟨hbroadcast, ?_, ?_⟩
    · intro deliveries lines output hlines hmix
      rw [hmix.filterMap_eq (broadcastPayload_deliveredOutput hlines), houtput,
        List.filterMap_map, expectedPayloads]
      exact List.filterMap_some
    · intro src deliveries own lines output hprefix hlines hmix
      have hown : ∀ line ∈ own.map LogLine.b, line.deliveredFrom src = none := by
        intro line hline
        obtain ⟨payload, -, rfl⟩ := List.mem_map.1 hline
        rfl
      have hcount := hprefix.length_le
      rw [Broadcaster.length_broadcasts_after] at hcount
      rw [hmix.symm.filterMap_eq hown, deliveredFrom_deliveredOutput hlines,
        List.prefix_iff_eq_take.1 hprefix, Broadcaster.take_broadcasts_after hcount,
        Broadcaster.payloadsOf_broadcasts_after hm hcount]
      exact ⟨_, Nat.min_le_right _ _, rfl⟩

/-- Nineteen payloads at a batch size of two: the third message holds three of them. -/
theorem runAsBroadcaster_logs_nineteen :
    ∃ broadcaster bound, (∀ fuel, bound ≤ fuel →
        Broadcaster.runAsBroadcaster 19 (fun _ => true) fuel {}
          (UniformReliableBroadcastRateLimiter.make 3 12 (by decide)) = some broadcaster) ∧
      LogsExpected 19 broadcaster :=
  runAsBroadcaster_logs (by decide) rfl fun _ => rfl

end BroadcastService.Applications

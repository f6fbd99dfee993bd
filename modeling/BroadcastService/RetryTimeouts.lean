import BroadcastService.TimerService
import BroadcastService.TransitionSystem

/-!
# Retry timeouts and the length of the wheel

The assertion of `AddTimer` in `io/timer_service.cpp`, and the calls of `AddTimer` that depend on a
retry policy: `Rearm` of `io/transport/backoff_retry.hpp` and `Retry` of `io/retryable_handler.hpp`.
A policy of a channel is copied for each message, whose backoff timer then calls `Next`, so `Rearm`
arms the timeouts of a backoff from the second one on. A policy of a handler is advanced by `Retry`
itself, which arms its timeouts from the first one on, and set back by `Reset`.

The wheel is longer than every duration up to `MaxDuration` but `MaxDuration` itself, so an
assertion fails exactly when the backoff of one of the policies comes to `MaxDuration`
(`retry_timeouts_fit_iff`).
-/

namespace BroadcastService.Transport
open DoubleRounding TransitionSystem

namespace TimerService

variable {τ : Type*} (service : TimerService τ)

def maxDuration : ℕ := maxTicksDuration * service.tickDuration % 2 ^ 64

def supports (duration : ℕ) : Bool := duration / service.tickDuration < maxTicksDuration

variable {service}

theorem supports_iff_ne (htick : 0 < service.tickDuration) {duration : ℕ}
    (hmax : duration ≤ service.maxDuration) :
    service.supports duration = true ↔ duration ≠ maxTicksDuration * service.tickDuration := by
  have hle : service.maxDuration ≤ maxTicksDuration * service.tickDuration := Nat.mod_le _ _
  rw [supports, decide_eq_true_iff, Nat.div_lt_iff_lt_mul htick]
  omega

end TimerService

/-- `timers` are the policies of the backoff timers in the wheel, and `firing` those of the timers
that have called `Next` and have yet to call `Rearm`. `armed` records the durations with which
`Rearm` and `Retry` call `AddTimer`. -/
structure RetryUsers where
  messagePolicies : List RetryPolicy
  handlerPolicies : List RetryPolicy
  timers : List RetryPolicy := []
  firing : List RetryPolicy := []
  armed : List ℕ := []

inductive RetryUse
  | create (i : ℕ)
  | next (i draw : ℕ)
  | rearm (i : ℕ)
  | cancel (i : ℕ)
  | retry (i draw : ℕ)
  | reset (i : ℕ)

namespace RetryUsers

variable (s : RetryUsers)

/-- `Rearm` of a timer that has called `Next`; the timer is deleted afterwards. -/
def rearm (i : ℕ) (policy : RetryPolicy) : RetryUsers :=
  if policy.isValid then
    { s with
      timers := s.timers ++ [policy]
      firing := s.firing.eraseIdx i
      armed := s.armed ++ [policy.timeoutMs] }
  else { s with firing := s.firing.eraseIdx i }

def retry (i draw : ℕ) (policy : RetryPolicy) : RetryUsers :=
  if policy.isValid then
    { s with
      handlerPolicies := s.handlerPolicies.set i (policy.next draw)
      armed := s.armed ++ [policy.timeoutMs] }
  else s

def step : RetryUse → Option RetryUsers
  | .create i => s.messagePolicies[i]?.map fun policy => { s with timers := s.timers ++ [policy] }
  | .next i draw => s.timers[i]?.map fun policy =>
      { s with timers := s.timers.eraseIdx i, firing := s.firing ++ [policy.next draw] }
  | .rearm i => s.firing[i]?.map (s.rearm i)
  | .cancel i => some { s with timers := s.timers.eraseIdx i }
  | .retry i draw => s.handlerPolicies[i]?.map (s.retry i draw)
  | .reset i => s.handlerPolicies[i]?.map fun policy =>
      { s with handlerPolicies := s.handlerPolicies.set i policy.reset }

end RetryUsers

/-- The policies that a policy becomes by calls of `Next`, each of them on a valid one. -/
inductive Backoff (policy : RetryPolicy) : ℕ → RetryPolicy → Prop
  | start : Backoff policy 0 policy
  | next {n : ℕ} {p : RetryPolicy} (draw : ℕ) (h : Backoff policy n p) (hvalid : p.isValid = true) :
      Backoff policy (n + 1) (p.next draw)

namespace Backoff

variable {policy p : RetryPolicy} {n : ℕ}

theorem eq_of_timeout (h : Backoff policy n p) :
    p = { policy with timeoutMs := p.timeoutMs } := by
  induction h with
  | start => rfl
  | next draw _ _ ih =>
      rw [RetryPolicy.next, ih]

theorem maxTimeoutMs_eq (h : Backoff policy n p) : p.maxTimeoutMs = policy.maxTimeoutMs := by
  rw [h.eq_of_timeout]

theorem reset_eq (h : Backoff policy n p) (hinitial : policy.initialTimeout = policy.timeoutMs) :
    p.reset = policy := by
  rw [h.eq_of_timeout]
  exact congrArg (fun timeoutMs => { policy with timeoutMs }) hinitial

theorem timeoutMs_next (h : Backoff policy n p) (hjitter : policy.withJitter = false) {k : ℕ}
    (hmultiplier : policy.multiplier = k) (hmax : policy.maxTimeoutMs < 2 ^ 53)
    (hvalid : p.isValid = true) {draw : ℕ} :
    (p.next draw).timeoutMs = ⌊toDouble ((p.timeoutMs * k : ℕ) : ℚ)⌋.toNat := by
  have hp := h.eq_of_timeout
  have hle : p.timeoutMs ≤ p.maxTimeoutMs := of_decide_eq_true hvalid
  rw [h.maxTimeoutMs_eq] at hle
  have hnone : p.withJitter = false := by rw [hp, hjitter]
  have htimes : p.multiplier = k := by rw [hp, hmultiplier]
  simp only [RetryPolicy.next, hnone, Bool.false_eq_true, if_false, RetryPolicy.maxNewTimeout,
    toDouble_natCast (hle.trans_lt hmax), htimes, Nat.cast_mul]

/-- Without jitter the timeout is multiplied by a natural multiplier, as long as doubles hold the
timeouts exactly. -/
theorem timeout_eq_pow (h : Backoff policy n p) (hjitter : policy.withJitter = false) {k : ℕ}
    (hmultiplier : policy.multiplier = k) (hmax : policy.maxTimeoutMs < 2 ^ 53) :
    p.timeoutMs = policy.timeoutMs * k ^ n ∨ 2 ^ 53 ≤ p.timeoutMs := by
  induction h with
  | start => exact .inl (by rw [pow_zero, mul_one])
  | @next n p draw h hvalid ih =>
      have hle : p.timeoutMs ≤ p.maxTimeoutMs := of_decide_eq_true hvalid
      rw [h.maxTimeoutMs_eq] at hle
      rw [h.timeoutMs_next hjitter hmultiplier hmax hvalid]
      rcases Nat.lt_or_ge (p.timeoutMs * k) (2 ^ 53) with hlt | hge
      · left
        have htimeout := ih.resolve_right (by omega)
        rw [toDouble_natCast hlt, Int.floor_natCast, Int.toNat_natCast, htimeout, pow_succ,
          mul_assoc]
      · right
        have hrounded : (2 ^ 53 : ℚ) ≤ toDouble ((p.timeoutMs * k : ℕ) : ℚ) :=
          le_toDouble (by exact_mod_cast hge)
        have hfloor : (2 ^ 53 : ℤ) ≤ ⌊toDouble ((p.timeoutMs * k : ℕ) : ℚ)⌋ :=
          Int.le_floor.2 (by exact_mod_cast hrounded)
        omega

end Backoff

/-- No valid timeout of a backoff, from the given one on, is the length of the whole wheel. -/
def Short {τ : Type*} (service : TimerService τ) (first : ℕ) (policy : RetryPolicy) : Prop :=
  ∀ n p, first ≤ n → Backoff policy n p → p.isValid = true →
    p.timeoutMs ≠ maxTicksDuration * service.tickDuration

theorem exists_backoff_pow {policy : RetryPolicy} {k n : ℕ} (hjitter : policy.withJitter = false)
    (hmultiplier : policy.multiplier = k) (hk : 0 < k) (hmax : policy.maxTimeoutMs < 2 ^ 53)
    (hlast : policy.timeoutMs * k ^ n ≤ policy.maxTimeoutMs) :
    ∃ p, Backoff policy n p ∧ p.timeoutMs = policy.timeoutMs * k ^ n := by
  have hvalid : ∀ m ≤ n, policy.timeoutMs * k ^ m ≤ policy.maxTimeoutMs := fun m hm =>
    (Nat.mul_le_mul_left _ (Nat.pow_le_pow_right hk hm)).trans hlast
  induction n with
  | zero => exact ⟨policy, .start, by rw [pow_zero, mul_one]⟩
  | succ n ih =>
      obtain ⟨p, hp, htimeout⟩ := ih (hvalid n (Nat.le_succ n)) fun m hm => hvalid m (by omega)
      have hbefore : p.isValid = true := by
        refine decide_eq_true ?_
        rw [hp.maxTimeoutMs_eq, htimeout]
        exact hvalid n (Nat.le_succ n)
      refine ⟨_, hp.next 0 hbefore, ?_⟩
      rw [hp.timeoutMs_next hjitter hmultiplier hmax hbefore, htimeout, mul_assoc, ← pow_succ,
        toDouble_natCast (hlast.trans_lt hmax), Int.floor_natCast, Int.toNat_natCast]

/-- Without jitter and with a natural multiplier the timeouts are those of a geometric sequence. -/
theorem short_iff_pow {τ : Type*} {service : TimerService τ} {policy : RetryPolicy} {k : ℕ}
    (htick : 0 < service.tickDuration) (hmax : policy.maxTimeoutMs = service.maxDuration)
    (hsmall : maxTicksDuration * service.tickDuration < 2 ^ 53)
    (hjitter : policy.withJitter = false) (hmultiplier : policy.multiplier = k) (first : ℕ) :
    Short service first policy ↔ ∀ n, first ≤ n →
      policy.timeoutMs * k ^ n ≠ maxTicksDuration * service.tickDuration := by
  have hduration : service.maxDuration = maxTicksDuration * service.tickDuration :=
    Nat.mod_eq_of_lt (hsmall.trans (by norm_num))
  have hpos : 0 < maxTicksDuration * service.tickDuration := Nat.mul_pos (by decide) htick
  constructor
  · intro h n hn htimeout
    have hlast : policy.timeoutMs * k ^ n ≤ policy.maxTimeoutMs := by omega
    obtain ⟨p, hp, hpow⟩ : ∃ p, Backoff policy n p ∧ p.timeoutMs = policy.timeoutMs * k ^ n := by
      rcases Nat.eq_zero_or_pos k with rfl | hk
      · cases n with
        | zero => exact ⟨policy, .start, by rw [pow_zero, mul_one]⟩
        | succ n => simp only [pow_succ, mul_zero] at htimeout; omega
      · exact exists_backoff_pow hjitter hmultiplier hk (by omega) hlast
    refine h n p hn hp (decide_eq_true ?_) (hpow.trans htimeout)
    rw [hp.maxTimeoutMs_eq, hpow]
    exact hlast
  · intro h n p hn hp _ htimeout
    rcases hp.timeout_eq_pow hjitter hmultiplier (by omega) with hpow | hlarge
    · exact h n hn (hpow ▸ htimeout)
    · omega

/-- Without jitter a backoff ends with its first invalid timeout. -/
theorem short_of_iterate {τ : Type*} {service : TimerService τ} {policy : RetryPolicy}
    {first last : ℕ} (hjitter : policy.withJitter = false)
    (hlast : ((·.next 0)^[last] policy).isValid = false)
    (h : ∀ n < last, first ≤ n →
      ((·.next 0)^[n] policy).timeoutMs ≠ maxTicksDuration * service.tickDuration) :
    Short service first policy := by
  have hiterate : ∀ n p, Backoff policy n p → p = (·.next 0)^[n] policy ∧ n ≤ last := by
    intro n p hp
    induction hp with
    | start => exact ⟨rfl, Nat.zero_le _⟩
    | @next n p draw hp hvalid ih =>
        obtain ⟨heq, hle⟩ := ih
        have hne : n ≠ last := by
          rintro rfl
          rw [← heq, hvalid] at hlast
          cases hlast
        have hnone : p.withJitter = false := by rw [hp.eq_of_timeout, hjitter]
        have hnext : p.next draw = p.next 0 := by simp only [RetryPolicy.next, hnone]; rfl
        rw [hnext, Function.iterate_succ_apply', ← heq]
        exact ⟨rfl, by omega⟩
  intro n p hn hp hvalid
  obtain ⟨rfl, hle⟩ := hiterate n p hp
  refine h n (lt_of_le_of_ne hle ?_) hn
  rintro rfl
  rw [hvalid] at hlast
  cases hlast

namespace RetryUsers

variable {messages handlers : List RetryPolicy} {s s' : RetryUsers} {use : RetryUse}

/-- The policies in use are those of backoffs, and those of timers in the wheel are valid. -/
structure Backs (messages handlers : List RetryPolicy) (s : RetryUsers) : Prop where
  messagePolicies : s.messagePolicies = messages
  handlerPolicies : ∀ p ∈ s.handlerPolicies, ∃ policy ∈ handlers, ∃ n, Backoff policy n p
  timers : ∀ p ∈ s.timers, p.isValid = true ∧ ∃ policy ∈ messages, ∃ n, Backoff policy n p
  firing : ∀ p ∈ s.firing, ∃ policy ∈ messages, ∃ n, Backoff policy (n + 1) p

theorem forall_set {P : RetryPolicy → Prop} {l : List RetryPolicy} {added : RetryPolicy} (i : ℕ)
    (h : ∀ p ∈ l, P p) (hadded : P added) : ∀ p ∈ l.set i added, P p := by
  intro p hp
  rcases List.mem_or_eq_of_mem_set hp with hp | rfl
  · exact h p hp
  · exact hadded

theorem forall_eraseIdx {P : RetryPolicy → Prop} {l : List RetryPolicy} (i : ℕ)
    (h : ∀ p ∈ l, P p) : ∀ p ∈ l.eraseIdx i, P p :=
  fun p hp => h p (List.mem_of_mem_eraseIdx hp)

theorem forall_append {P : RetryPolicy → Prop} {l : List RetryPolicy} {added : RetryPolicy}
    (h : ∀ p ∈ l, P p) (hadded : P added) : ∀ p ∈ l ++ [added], P p :=
  List.forall_mem_append.2 ⟨h, List.forall_mem_singleton.2 hadded⟩

/-- The policies start valid, and `Reset` sets them back to what they were. -/
def Fresh (policies : List RetryPolicy) : Prop :=
  ∀ policy ∈ policies, policy.isValid = true ∧ policy.initialTimeout = policy.timeoutMs

theorem Backs.step (h : Backs messages handlers s) (hmessages : Fresh messages)
    (hhandlers : Fresh handlers) (hstep : s.step use = some s') : Backs messages handlers s' := by
  cases use with
  | create i =>
      obtain ⟨policy, hpolicy, rfl⟩ := Option.map_eq_some_iff.1 hstep
      have hmem : policy ∈ messages := h.messagePolicies ▸ List.mem_of_getElem? hpolicy
      exact ⟨h.messagePolicies, h.handlerPolicies,
        forall_append h.timers ⟨(hmessages policy hmem).1, policy, hmem, 0, .start⟩, h.firing⟩
  | next i draw =>
      obtain ⟨p, hp, rfl⟩ := Option.map_eq_some_iff.1 hstep
      obtain ⟨hvalid, policy, hpolicy, n, hbackoff⟩ := h.timers p (List.mem_of_getElem? hp)
      exact ⟨h.messagePolicies, h.handlerPolicies, forall_eraseIdx i h.timers,
        forall_append h.firing ⟨policy, hpolicy, n, hbackoff.next draw hvalid⟩⟩
  | rearm i =>
      obtain ⟨p, hp, rfl⟩ := Option.map_eq_some_iff.1 hstep
      obtain ⟨policy, hpolicy, n, hbackoff⟩ := h.firing p (List.mem_of_getElem? hp)
      rw [rearm]
      split_ifs with hvalid
      · exact ⟨h.messagePolicies, h.handlerPolicies,
          forall_append h.timers ⟨hvalid, policy, hpolicy, n + 1, hbackoff⟩,
          forall_eraseIdx i h.firing⟩
      · exact ⟨h.messagePolicies, h.handlerPolicies, h.timers, forall_eraseIdx i h.firing⟩
  | cancel i =>
      cases hstep
      exact ⟨h.messagePolicies, h.handlerPolicies, forall_eraseIdx i h.timers, h.firing⟩
  | retry i draw =>
      obtain ⟨p, hp, rfl⟩ := Option.map_eq_some_iff.1 hstep
      obtain ⟨policy, hpolicy, n, hbackoff⟩ := h.handlerPolicies p (List.mem_of_getElem? hp)
      rw [retry]
      split_ifs with hvalid
      · exact ⟨h.messagePolicies,
          forall_set i h.handlerPolicies ⟨policy, hpolicy, n + 1, hbackoff.next draw hvalid⟩,
          h.timers, h.firing⟩
      · exact h
  | reset i =>
      obtain ⟨p, hp, rfl⟩ := Option.map_eq_some_iff.1 hstep
      obtain ⟨policy, hpolicy, n, hbackoff⟩ := h.handlerPolicies p (List.mem_of_getElem? hp)
      rw [hbackoff.reset_eq (hhandlers policy hpolicy).2]
      have hset := forall_set i h.handlerPolicies ⟨policy, hpolicy, 0, .start⟩
      exact ⟨h.messagePolicies, hset, h.timers, h.firing⟩

theorem Backs.armed_step (h : Backs messages handlers s) (hstep : s.step use = some s')
    {timeout : ℕ} (htimeout : timeout ∈ s'.armed) :
    timeout ∈ s.armed ∨ ∃ p n, p.isValid = true ∧ p.timeoutMs = timeout ∧
      ((∃ policy ∈ messages, Backoff policy (n + 1) p) ∨ ∃ policy ∈ handlers, Backoff policy n p)
      := by
  cases use with
  | create i =>
      obtain ⟨policy, -, rfl⟩ := Option.map_eq_some_iff.1 hstep
      exact .inl htimeout
  | next i draw =>
      obtain ⟨p, -, rfl⟩ := Option.map_eq_some_iff.1 hstep
      exact .inl htimeout
  | rearm i =>
      obtain ⟨p, hp, rfl⟩ := Option.map_eq_some_iff.1 hstep
      rw [rearm] at htimeout
      split_ifs at htimeout with hvalid
      · rcases List.mem_append.1 htimeout with hold | hnew
        · exact .inl hold
        · obtain ⟨policy, hpolicy, n, hbackoff⟩ := h.firing p (List.mem_of_getElem? hp)
          exact .inr ⟨p, n, hvalid, (List.mem_singleton.1 hnew).symm,
            .inl ⟨policy, hpolicy, hbackoff⟩⟩
      · exact .inl htimeout
  | cancel i =>
      cases hstep
      exact .inl htimeout
  | retry i draw =>
      obtain ⟨p, hp, rfl⟩ := Option.map_eq_some_iff.1 hstep
      rw [retry] at htimeout
      split_ifs at htimeout with hvalid
      · rcases List.mem_append.1 htimeout with hold | hnew
        · exact .inl hold
        · obtain ⟨policy, hpolicy, n, hbackoff⟩ := h.handlerPolicies p (List.mem_of_getElem? hp)
          exact .inr ⟨p, n, hvalid, (List.mem_singleton.1 hnew).symm,
            .inr ⟨policy, hpolicy, hbackoff⟩⟩
      · exact .inl htimeout
  | reset i =>
      obtain ⟨p, -, rfl⟩ := Option.map_eq_some_iff.1 hstep
      exact .inl htimeout

theorem backs_of_reachable (hmessages : Fresh messages) (hhandlers : Fresh handlers)
    (hr : Reachable RetryUsers.step ⟨messages, handlers, [], [], []⟩ s) :
    Backs messages handlers s := by
  apply hr.invariant (I := Backs messages handlers)
  · exact ⟨rfl, fun p hp => ⟨p, hp, 0, .start⟩, List.forall_mem_nil _, List.forall_mem_nil _⟩
  · intro s use s' _ h _ hstep
    exact h.step hmessages hhandlers hstep

theorem exists_getElem?_of_mem {l : List RetryPolicy} {p : RetryPolicy} (h : p ∈ l) :
    ∃ i : ℕ, l[i]? = some p := List.mem_iff_getElem?.1 h

/-- A timer comes to every valid policy of the backoff of its message, and arms its timeout. -/
theorem exists_timer (handlers : List RetryPolicy) {policy p : RetryPolicy} {n : ℕ}
    (hpolicy : policy ∈ messages) (h : Backoff policy n p) (hvalid : p.isValid = true) :
    ∃ s, Reachable RetryUsers.step ⟨messages, handlers, [], [], []⟩ s ∧ p ∈ s.timers ∧
      (0 < n → p.timeoutMs ∈ s.armed) := by
  induction h with
  | start =>
      obtain ⟨i, hi⟩ := exists_getElem?_of_mem hpolicy
      have hs : RetryUsers.step ⟨messages, handlers, [], [], []⟩ (.create i) =
          some ⟨messages, handlers, [policy], [], []⟩ := by
        simp [RetryUsers.step, hi]
      exact ⟨_, .tail .refl trivial hs, List.mem_singleton_self _, fun h => absurd h (lt_irrefl _)⟩
  | @next n p draw _ hbefore ih =>
      obtain ⟨s, hr, hmem, -⟩ := ih hbefore
      obtain ⟨i, hi⟩ := exists_getElem?_of_mem hmem
      let fired : RetryUsers :=
        { s with timers := s.timers.eraseIdx i, firing := s.firing ++ [p.next draw] }
      have hnext : s.step (.next i draw) = some fired := by simp [RetryUsers.step, hi, fired]
      have hlast : fired.firing[s.firing.length]? = some (p.next draw) := by simp [fired]
      have hrearm : fired.step (.rearm s.firing.length) =
          some (fired.rearm s.firing.length (p.next draw)) := by
        simp only [RetryUsers.step, hlast, Option.map_some]
      refine ⟨_, (hr.tail trivial hnext).tail trivial hrearm, ?_⟩
      rw [rearm, if_pos hvalid]
      exact ⟨List.mem_append_right _ (List.mem_singleton_self _),
        fun _ => List.mem_append_right _ (List.mem_singleton_self _)⟩

theorem exists_handler (messages : List RetryPolicy) {policy p : RetryPolicy} {n : ℕ}
    (hpolicy : policy ∈ handlers) (h : Backoff policy n p) :
    ∃ s, Reachable RetryUsers.step ⟨messages, handlers, [], [], []⟩ s ∧
      p ∈ s.handlerPolicies := by
  induction h with
  | start => exact ⟨_, .refl, hpolicy⟩
  | @next n p draw _ hvalid ih =>
      obtain ⟨s, hr, hmem⟩ := ih
      obtain ⟨i, hi⟩ := exists_getElem?_of_mem hmem
      have hs : s.step (.retry i draw) = some (s.retry i draw p) := by simp [RetryUsers.step, hi]
      refine ⟨_, hr.tail trivial hs, ?_⟩
      rw [retry, if_pos hvalid]
      exact List.mem_set (List.getElem?_eq_some_iff.1 hi).1 _

theorem exists_armed (messages : List RetryPolicy) {policy p : RetryPolicy} {n : ℕ}
    (hpolicy : policy ∈ handlers) (h : Backoff policy n p) (hvalid : p.isValid = true) :
    ∃ s, Reachable RetryUsers.step ⟨messages, handlers, [], [], []⟩ s ∧
      p.timeoutMs ∈ s.armed := by
  obtain ⟨s, hr, hmem⟩ := exists_handler messages hpolicy h
  obtain ⟨i, hi⟩ := exists_getElem?_of_mem hmem
  have hs : s.step (.retry i 0) = some (s.retry i 0 p) := by simp [RetryUsers.step, hi]
  refine ⟨_, hr.tail trivial hs, ?_⟩
  rw [retry, if_pos hvalid]
  exact List.mem_append_right _ (List.mem_singleton_self _)

end RetryUsers

/-- All durations with which `Rearm` and `Retry` call `AddTimer` pass its assertion, in every run,
exactly when no backoff comes to the length of the whole wheel. Without jitter and with a natural
multiplier this is a condition on a geometric sequence. -/
theorem retry_timeouts_fit_iff {τ : Type*} {service : TimerService τ}
    (htick : 0 < service.tickDuration) {messages handlers : List RetryPolicy}
    (hpolicies : ∀ policy ∈ messages ++ handlers, policy.maxTimeoutMs = service.maxDuration ∧
      policy.timeoutMs ≤ service.maxDuration ∧ policy.initialTimeout = policy.timeoutMs) :
    ((∀ s, Reachable RetryUsers.step ⟨messages, handlers, [], [], []⟩ s →
        ∀ timeout ∈ s.armed, service.supports timeout = true) ↔
      (∀ policy ∈ messages, Short service 1 policy) ∧
        ∀ policy ∈ handlers, Short service 0 policy) ∧
    ∀ policy ∈ messages ++ handlers, policy.withJitter = false →
      ∀ k : ℕ, policy.multiplier = k → maxTicksDuration * service.tickDuration < 2 ^ 53 →
      ∀ first, Short service first policy ↔ ∀ n, first ≤ n →
        policy.timeoutMs * k ^ n ≠ maxTicksDuration * service.tickDuration := by
  have hmessages : ∀ policy ∈ messages, policy ∈ messages ++ handlers :=
    fun _ => List.mem_append_left _
  have hhandlers : ∀ policy ∈ handlers, policy ∈ messages ++ handlers :=
    fun _ => List.mem_append_right _
  have hfresh : ∀ policy ∈ messages ++ handlers,
      policy.isValid = true ∧ policy.initialTimeout = policy.timeoutMs := by
    intro policy hpolicy
    obtain ⟨hmax, hle, hinitial⟩ := hpolicies policy hpolicy
    exact ⟨decide_eq_true (hmax ▸ hle), hinitial⟩
  -- The assertion for a valid policy of a backoff.
  have hsupports : ∀ policy ∈ messages ++ handlers, ∀ n p, Backoff policy n p →
      p.isValid = true → (service.supports p.timeoutMs = true ↔
        p.timeoutMs ≠ maxTicksDuration * service.tickDuration) := by
    intro policy hpolicy n p hp hvalid
    apply TimerService.supports_iff_ne htick
    rw [← (hpolicies policy hpolicy).1, ← hp.maxTimeoutMs_eq]
    exact of_decide_eq_true hvalid
  refine ⟨⟨fun h => ⟨?_, ?_⟩, fun ⟨hfirst, hsecond⟩ => ?_⟩, ?_⟩
  · intro policy hpolicy n p hn hp hvalid
    obtain ⟨s, hr, -, harmed⟩ := RetryUsers.exists_timer handlers hpolicy hp hvalid
    exact (hsupports policy (hmessages policy hpolicy) n p hp hvalid).1 (h s hr _ (harmed hn))
  · intro policy hpolicy n p _ hp hvalid
    obtain ⟨s, hr, harmed⟩ := RetryUsers.exists_armed messages hpolicy hp hvalid
    exact (hsupports policy (hhandlers policy hpolicy) n p hp hvalid).1 (h s hr _ harmed)
  · intro s hr
    apply hr.invariant (I := fun s => ∀ timeout ∈ s.armed, service.supports timeout = true)
    · exact List.forall_mem_nil _
    · intro s use s' hr h _ hstep timeout htimeout
      have hbacks := RetryUsers.backs_of_reachable (fun p hp => hfresh p (hmessages p hp))
        (fun p hp => hfresh p (hhandlers p hp)) hr
      rcases hbacks.armed_step hstep htimeout with hold | ⟨p, n, hvalid, rfl, hnew⟩
      · exact h timeout hold
      · rcases hnew with ⟨policy, hpolicy, hp⟩ | ⟨policy, hpolicy, hp⟩
        · exact (hsupports policy (hmessages policy hpolicy) _ p hp hvalid).2
            (hfirst policy hpolicy _ p (Nat.succ_pos n) hp hvalid)
        · exact (hsupports policy (hhandlers policy hpolicy) _ p hp hvalid).2
            (hsecond policy hpolicy _ p (Nat.zero_le n) hp hvalid)
  · intro policy hpolicy hjitter k hmultiplier hsmall first
    exact short_iff_pow htick (hpolicies policy hpolicy).1 hsmall hjitter hmultiplier first

def hundredMs : TimerService Unit := { tickDuration := 100 }

def messagePolicy : RetryPolicy :=
  { timeoutMs := 1000, multiplier := 3, maxTimeoutMs := hundredMs.maxDuration }

def handlerPolicy : RetryPolicy :=
  { timeoutMs := 100, multiplier := 3 / 2, maxTimeoutMs := hundredMs.maxDuration }

theorem retry_timeouts_fit_applications : hundredMs.maxDuration = 100000 ∧
    ∀ s, Reachable RetryUsers.step ⟨[messagePolicy], [handlerPolicy], [], [], []⟩ s →
      ∀ timeout ∈ s.armed, hundredMs.supports timeout = true := by
  have htick : 0 < hundredMs.tickDuration := by decide
  have hpolicies : ∀ policy ∈ [messagePolicy] ++ [handlerPolicy],
      policy.maxTimeoutMs = hundredMs.maxDuration ∧
      policy.timeoutMs ≤ hundredMs.maxDuration ∧ policy.initialTimeout = policy.timeoutMs := by
    decide
  obtain ⟨hfit, hpow⟩ := retry_timeouts_fit_iff htick hpolicies
  refine ⟨rfl, hfit.2 ⟨?_, ?_⟩⟩
  · intro policy hpolicy
    obtain rfl := List.mem_singleton.1 hpolicy
    rw [hpow messagePolicy (by simp) rfl 3 rfl (by decide)]
    intro n _ hn
    rcases Nat.lt_or_ge n 5 with hlt | hge
    · interval_cases n <;> simp [messagePolicy, hundredMs, maxTicksDuration] at hn
    · have hlarge : 3 ^ 5 ≤ 3 ^ n := Nat.pow_le_pow_right (by decide) hge
      simp only [messagePolicy, hundredMs, maxTicksDuration] at hn
      omega
  · intro policy hpolicy
    obtain rfl := List.mem_singleton.1 hpolicy
    have hlast : ((·.next 0)^[18] handlerPolicy).isValid = false := by decide +kernel
    exact short_of_iterate rfl hlast (by decide +kernel)

def doubledPolicy : RetryPolicy :=
  { timeoutMs := 12500, multiplier := 2, maxTimeoutMs := hundredMs.maxDuration }

/-- A timer with this policy is armed at `MaxDuration`, where the assertion fails. -/
theorem longest_timeout_rejected :
    hundredMs.maxDuration = 100000 ∧
    ∃ s, Reachable RetryUsers.step ⟨[doubledPolicy], [], [], [], []⟩ s ∧
      s.armed = [25000, 50000, 100000] ∧ hundredMs.supports 100000 = false := by
  obtain ⟨s, hr, harmed⟩ : ∃ s,
      Reachable RetryUsers.step ⟨[doubledPolicy], [], [], [], []⟩ s ∧
      s.armed = [25000, 50000, 100000] :=
    exists_reachable [.create 0, .next 0 0, .rearm 0, .next 0 0, .rearm 0, .next 0 0, .rearm 0]
      (by decide +kernel)
  exact ⟨rfl, s, hr, harmed, rfl⟩

/-- The double 1.4 is smaller than seven fifths, and its product is rounded up to `MaxDuration` of a
wheel with ticks of 21 milliseconds. -/
def roundedPolicy : RetryPolicy :=
  { timeoutMs := 15000, multiplier := toDouble (7 / 5), maxTimeoutMs := 21000 }

example : roundedPolicy.multiplier < 7 / 5 ∧ roundedPolicy.maxNewTimeout = 21000 := by
  decide +kernel

end BroadcastService.Transport

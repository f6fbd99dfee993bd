import BroadcastService.DoubleRounding
import Mathlib.Data.Finset.Basic
import Mathlib.Logic.Function.Basic
import Mathlib.Tactic

/-!
# Timers and retry policies

The timer wheel of `io/timer_service.cpp` and the policies of `io/transport/backoff_retry.hpp`. A
timer carries the task that `Fire` runs. `collect` is the part of `Tick` that holds the mutex; the
timers it returns are cancelled or fired afterwards.

`ticks_`, `current_id_` and the deadlines are 64-bit in the source and natural numbers here, which
stand for the first `2 ^ 64` ticks and timers: the slot of a deadline is not the one of its residue,
since `2 ^ 64` is no multiple of the length of the wheel.

The multiplier of a policy is a double, which is a rational number here. `Next` converts the timeout
to a double, multiplies and truncates; a product that does not fit into 64 bits, for which the last
conversion is undefined, is larger than every largest timeout here. `RandInt` is a function of what
the random device draws.
-/

namespace BroadcastService.Transport
open DoubleRounding

structure Timer (τ : Type*) where
  deadline : ℕ
  id : ℕ
  task : τ
  deriving DecidableEq

def maxTicksDuration : ℕ := 1000

instance : NeZero maxTicksDuration := ⟨by decide⟩

structure TimerService (τ : Type*) where
  tickDuration : ℕ
  ticks : ℕ := 0
  timers : Fin maxTicksDuration → List (Timer τ) := fun _ => []
  slot : Fin maxTicksDuration := 0
  currentId : ℕ := 0
  cancelledTimers : Finset ℕ := ∅

namespace TimerService

variable {τ : Type*} (service : TimerService τ)

def getID : ℕ × TimerService τ :=
  (service.currentId, { service with currentId := service.currentId + 1 })

def doAddTimer (task : τ) (id tickDuration : ℕ) : TimerService τ :=
  let deadline := service.ticks + tickDuration
  let slot := Fin.ofNat maxTicksDuration deadline
  { service with
    timers := Function.update service.timers slot (service.timers slot ++ [⟨deadline, id, task⟩]) }

def addTimer (task : τ) (id duration : ℕ) : TimerService τ :=
  service.doAddTimer task id (duration / service.tickDuration)

def cancelTimer (id : ℕ) : TimerService τ :=
  { service with cancelledTimers := insert id service.cancelledTimers }

def advanceSlot : TimerService τ :=
  { service with
    slot := if h : service.slot + 1 < maxTicksDuration then ⟨service.slot + 1, h⟩ else 0 }

/-- Both lists are built with `PushFront`. -/
def expireSlot : List (Timer τ) × TimerService τ :=
  let slotList := service.timers service.slot
  ((slotList.filter fun timer => timer.deadline ≤ service.ticks).reverse,
    { service with
      timers := Function.update service.timers service.slot
        (slotList.filter fun timer => ¬timer.deadline ≤ service.ticks).reverse })

def expireSlots : ℕ → TimerService τ → List (Timer τ) × TimerService τ
  | 0, service => ([], service)
  | elapsed + 1, service =>
      let (expired, service) := service.advanceSlot.expireSlot
      let (rest, service) := expireSlots elapsed service
      (expired ++ rest, service)

/-- Split expired timers into those to cancel and those to fire; a cancellation is used up by the
first timer with its identifier. -/
def splitCancelled : List (Timer τ) → Finset ℕ → List (Timer τ) × List (Timer τ) × Finset ℕ
  | [], cancelledTimers => ([], [], cancelledTimers)
  | timer :: timers, cancelledTimers =>
      if timer.id ∈ cancelledTimers then
        let (cancelled, fired, rest) := splitCancelled timers (cancelledTimers.erase timer.id)
        (timer :: cancelled, fired, rest)
      else
        let (cancelled, fired, rest) := splitCancelled timers cancelledTimers
        (cancelled, timer :: fired, rest)

def collect (elapsed : ℕ) : List (Timer τ) × List (Timer τ) × TimerService τ :=
  let (expired, service) := expireSlots elapsed { service with ticks := service.ticks + elapsed }
  let (cancelled, fired, cancelledTimers) := splitCancelled expired service.cancelledTimers
  (cancelled, fired, { service with cancelledTimers })

def content : Multiset (Timer τ) := ∑ slot, (service.timers slot : Multiset (Timer τ))

def Holds (timer : Timer τ) : Prop := ∃ slot, timer ∈ service.timers slot

theorem mem_content {timer : Timer τ} : timer ∈ service.content ↔ service.Holds timer := by
  simp [content, Holds, Multiset.mem_sum]

theorem sum_update (timers : Fin maxTicksDuration → List (Timer τ)) (slot : Fin maxTicksDuration)
    (slotList : List (Timer τ)) :
    ∑ s, (Function.update timers slot slotList s : Multiset (Timer τ)) + timers slot =
      ∑ s, (timers s : Multiset (Timer τ)) + slotList := by
  have hrest : ∑ s ∈ Finset.univ.erase slot,
      (Function.update timers slot slotList s : Multiset (Timer τ)) =
      ∑ s ∈ Finset.univ.erase slot, (timers s : Multiset (Timer τ)) := by
    apply Finset.sum_congr rfl
    intro s hs
    rw [Function.update_of_ne (Finset.ne_of_mem_erase hs)]
  rw [← Finset.add_sum_erase _ _ (Finset.mem_univ slot), hrest, Function.update_self,
    ← Finset.add_sum_erase _ (fun s => (timers s : Multiset (Timer τ))) (Finset.mem_univ slot)]
  abel

theorem content_addTimer (task : τ) (id duration : ℕ) :
    (service.addTimer task id duration).content =
      ⟨service.ticks + duration / service.tickDuration, id, task⟩ ::ₘ service.content := by
  have h := sum_update service.timers
    (Fin.ofNat maxTicksDuration (service.ticks + duration / service.tickDuration))
    (service.timers
        (Fin.ofNat maxTicksDuration (service.ticks + duration / service.tickDuration)) ++
      [⟨service.ticks + duration / service.tickDuration, id, task⟩])
  rw [← Multiset.coe_add, ← add_assoc, add_right_comm, add_left_inj] at h
  rw [← Multiset.singleton_add, add_comm]
  exact h

theorem content_expireSlot :
    service.content = service.expireSlot.1 + service.expireSlot.2.content := by
  have h := sum_update service.timers service.slot
    (service.timers service.slot |>.filter fun timer => ¬timer.deadline ≤ service.ticks).reverse
  have hsplit : (service.timers service.slot : Multiset (Timer τ)) = service.expireSlot.1 +
      ((service.timers service.slot).filter
        fun timer => ¬timer.deadline ≤ service.ticks).reverse := by
    simp only [expireSlot, Multiset.coe_reverse, ← Multiset.filter_coe]
    exact (Multiset.filter_add_not _ _).symm
  rw [hsplit, ← add_assoc, add_left_inj, add_comm] at h
  exact h.symm

theorem content_expireSlots (elapsed : ℕ) : service.content =
    (expireSlots elapsed service).1 + (expireSlots elapsed service).2.content := by
  induction elapsed generalizing service with
  | zero => simp [expireSlots]
  | succ elapsed ih =>
      have hadvance : service.content = service.advanceSlot.content := rfl
      rw [hadvance, content_expireSlot, ih, ← add_assoc, Multiset.coe_add]
      rfl

theorem holds_addTimer {task : τ} {id duration : ℕ} {timer : Timer τ} :
    (service.addTimer task id duration).Holds timer ↔ service.Holds timer ∨
      timer = ⟨service.ticks + duration / service.tickDuration, id, task⟩ := by
  rw [← mem_content, content_addTimer, Multiset.mem_cons, mem_content, or_comm]

theorem cancelledTimers_expireSlots (elapsed : ℕ) :
    (expireSlots elapsed service).2.cancelledTimers = service.cancelledTimers := by
  induction elapsed generalizing service with
  | zero => rfl
  | succ elapsed ih => exact ih service.advanceSlot.expireSlot.2

theorem currentId_expireSlots (elapsed : ℕ) :
    (expireSlots elapsed service).2.currentId = service.currentId := by
  induction elapsed generalizing service with
  | zero => rfl
  | succ elapsed ih => exact ih service.advanceSlot.expireSlot.2

theorem splitCancelled_perm (timers : List (Timer τ)) (cancelledTimers : Finset ℕ) :
    timers.Perm ((splitCancelled timers cancelledTimers).1 ++
      (splitCancelled timers cancelledTimers).2.1) := by
  induction timers generalizing cancelledTimers with
  | nil => exact .refl _
  | cons t timers ih =>
      rw [splitCancelled]
      split_ifs with ht
      · exact (ih _).cons t
      · exact ((ih _).cons t).trans List.perm_middle.symm

theorem splitCancelled_spec (timers : List (Timer τ)) (cancelledTimers : Finset ℕ) :
    (∀ timer ∈ (splitCancelled timers cancelledTimers).1, timer.id ∈ cancelledTimers) ∧
    (splitCancelled timers cancelledTimers).2.2 ⊆ cancelledTimers := by
  induction timers generalizing cancelledTimers with
  | nil => simp [splitCancelled]
  | cons t timers ih =>
      rw [splitCancelled]
      split_ifs with ht
      · obtain ⟨hid, hsub⟩ := ih (cancelledTimers.erase t.id)
        refine ⟨fun timer h => ?_, hsub.trans (Finset.erase_subset _ _)⟩
        rcases List.mem_cons.1 h with rfl | h
        · exact ht
        · exact Finset.mem_of_mem_erase (hid timer h)
      · exact ih cancelledTimers

/-- A tick moves timers out of the wheel, and cancels only those whose identifier was cancelled. -/
theorem content_collect (elapsed : ℕ) : service.content =
    (service.collect elapsed).1 + (service.collect elapsed).2.1 +
      (service.collect elapsed).2.2.content := by
  have hticks : service.content =
      { service with ticks := service.ticks + elapsed : TimerService τ }.content := rfl
  have hsplit : ((expireSlots elapsed { service with ticks := service.ticks + elapsed }).1 :
      Multiset (Timer τ)) = (service.collect elapsed).1 + (service.collect elapsed).2.1 := by
    rw [Multiset.coe_add]
    exact Multiset.coe_eq_coe.2 (splitCancelled_perm _ _)
  rw [hticks, content_expireSlots _ elapsed, hsplit]
  rfl

theorem holds_collect (elapsed : ℕ) {timer : Timer τ} : service.Holds timer ↔
    timer ∈ (service.collect elapsed).1 ∨ timer ∈ (service.collect elapsed).2.1 ∨
      (service.collect elapsed).2.2.Holds timer := by
  rw [← mem_content, content_collect _ elapsed, Multiset.mem_add, Multiset.mem_add, mem_content,
    Multiset.mem_coe, Multiset.mem_coe, or_assoc]

theorem id_of_collect_cancelled {elapsed : ℕ} {timer : Timer τ}
    (h : timer ∈ (service.collect elapsed).1) : timer.id ∈ service.cancelledTimers := by
  have := (splitCancelled_spec _ _).1 timer h
  rwa [cancelledTimers_expireSlots] at this

theorem cancelledTimers_collect (elapsed : ℕ) :
    (service.collect elapsed).2.2.cancelledTimers ⊆ service.cancelledTimers := by
  apply (splitCancelled_spec _ _).2.trans
  rw [cancelledTimers_expireSlots]

theorem currentId_collect (elapsed : ℕ) :
    (service.collect elapsed).2.2.currentId = service.currentId :=
  currentId_expireSlots { service with ticks := service.ticks + elapsed } elapsed

end TimerService

def randInt (draw low high : ℕ) : ℕ := low + draw % (high + 1 - low)

structure RetryPolicy where
  timeoutMs : ℕ
  multiplier : ℚ
  maxTimeoutMs : ℕ
  initialTimeout : ℕ := timeoutMs
  withJitter : Bool := false

namespace RetryPolicy

variable (policy : RetryPolicy)

def isValid : Bool := decide (policy.timeoutMs ≤ policy.maxTimeoutMs)

def maxNewTimeout : ℕ := ⌊toDouble (toDouble policy.timeoutMs * policy.multiplier)⌋.toNat

def next (draw : ℕ) : RetryPolicy :=
  { policy with
    timeoutMs :=
      if policy.withJitter then randInt draw policy.timeoutMs policy.maxNewTimeout
      else policy.maxNewTimeout }

def reset : RetryPolicy := { policy with timeoutMs := policy.initialTimeout }

end RetryPolicy

end BroadcastService.Transport

import BroadcastService.TimerService
import BroadcastService.TransitionSystem

/-!
# The timer wheel over whole runs

Calls of `AddTimer`, `CancelTimer` and `Tick` in any order. The task of a timer is the number of the
call that added it, so all timers added are different. A `Tick` first collects timers under the
mutex and then calls `Cancel` or `Fire` on them one by one; timers may be added and cancelled in
between, from callbacks or from other threads, but the next `Tick` starts after the last call.

`TickRecord` keeps what one `Tick` has collected and called, with `cancelled_timers_` as it found
it.
-/

namespace BroadcastService.Transport
open TransitionSystem

inductive TimerCall
  | cancel (timer : Timer ℕ)
  | fire (timer : Timer ℕ)
  deriving DecidableEq

def TimerCall.timer : TimerCall → Timer ℕ
  | .cancel timer => timer
  | .fire timer => timer

structure TickRecord where
  before : ℕ
  after : ℕ
  cancelledTimers : Finset ℕ
  expired : List (Timer ℕ)
  calls : List TimerCall := []
  pending : List TimerCall

/-- The latest `Tick` is the head of the log. -/
structure WheelRun where
  service : TimerService ℕ
  added : List (Timer ℕ) := []
  log : List TickRecord := []

inductive WheelEvent
  | getID
  | addTimer (id duration : ℕ)
  | addNewTimer (duration : ℕ)
  | cancelTimer (id : ℕ)
  | tick (elapsed : ℕ)
  | call

namespace WheelRun

def start (tickDuration : ℕ) : WheelRun where
  service := { tickDuration }

/-- `AddTimer` with a duration of at least one tick that passes the assert. -/
def addTimer (run : WheelRun) (id duration : ℕ) : Option WheelRun :=
  let tickDuration := duration / run.service.tickDuration
  if 1 ≤ tickDuration ∧ tickDuration < maxTicksDuration then
    some { run with
      service := run.service.addTimer run.added.length id duration
      added := run.added ++ [⟨run.service.ticks + tickDuration, id, run.added.length⟩] }
  else none

/-- The overload that draws an identifier. -/
def addNewTimer (run : WheelRun) (duration : ℕ) : Option WheelRun :=
  let (id, service) := run.service.getID
  { run with service }.addTimer id duration

def tick (run : WheelRun) (elapsed : ℕ) : Option WheelRun :=
  if 0 < elapsed ∧ ∀ record ∈ run.log.head?, record.pending = [] then
    let (cancelled, fired, service) := run.service.collect elapsed
    some { run with
      service
      log :=
        { before := run.service.ticks
          after := run.service.ticks + elapsed
          cancelledTimers := run.service.cancelledTimers
          expired := (TimerService.expireSlots elapsed
            { run.service with ticks := run.service.ticks + elapsed }).1
          pending := cancelled.map .cancel ++ fired.map .fire } :: run.log }
  else none

def call (run : WheelRun) : Option WheelRun :=
  match run.log with
  | [] => none
  | record :: log =>
      match record.pending with
      | [] => none
      | c :: pending =>
          some { run with log := { record with calls := record.calls ++ [c], pending } :: log }

def step (run : WheelRun) : WheelEvent → Option WheelRun
  | .getID => some { run with service := run.service.getID.2 }
  | .addTimer id duration => run.addTimer id duration
  | .addNewTimer duration => run.addNewTimer duration
  | .cancelTimer id => some { run with service := run.service.cancelTimer id }
  | .tick elapsed => run.tick elapsed
  | .call => run.call

end WheelRun

namespace TimerService

variable {τ : Type*} {service : TimerService τ}

/-- The current slot is that of the position, every timer is in the slot of its deadline, and the
deadlines are after the position. -/
structure Placed (service : TimerService τ) (position : ℕ) : Prop where
  slot : (service.slot : ℕ) = position % maxTicksDuration
  timers : ∀ slot, ∀ timer ∈ service.timers slot,
    timer.deadline % maxTicksDuration = slot ∧ position < timer.deadline

theorem mem_timers_addTimer {task : τ} {id duration : ℕ} {timer : Timer τ}
    {slot : Fin maxTicksDuration} :
    timer ∈ (service.addTimer task id duration).timers slot ↔ timer ∈ service.timers slot ∨
      slot = Fin.ofNat maxTicksDuration (service.ticks + duration / service.tickDuration) ∧
        timer = ⟨service.ticks + duration / service.tickDuration, id, task⟩ := by
  change timer ∈ Function.update service.timers _ _ slot ↔ _
  by_cases hs : slot = Fin.ofNat maxTicksDuration (service.ticks + duration / service.tickDuration)
  · subst hs
    rw [Function.update_self, List.mem_append, List.mem_singleton]
    exact or_congr_right (and_iff_right rfl).symm
  · rw [Function.update_of_ne hs]
    exact (or_iff_left fun h => hs h.1).symm

theorem mem_timers_expireSlot {timer : Timer τ} {slot : Fin maxTicksDuration} :
    timer ∈ service.expireSlot.2.timers slot ↔ timer ∈ service.timers slot ∧
      (slot = service.slot → service.ticks < timer.deadline) := by
  change timer ∈ Function.update service.timers service.slot _ slot ↔ _
  by_cases hs : slot = service.slot
  · subst hs
    rw [Function.update_self, List.mem_reverse, List.mem_filter, decide_eq_true_iff, not_le]
    exact and_congr_right fun _ => (imp_iff_right rfl).symm
  · rw [Function.update_of_ne hs]
    exact (and_iff_left fun he => absurd he hs).symm

theorem Placed.addTimer (h : Placed service service.ticks) (task : τ) (id : ℕ) {duration : ℕ}
    (hduration : 1 ≤ duration / service.tickDuration) :
    Placed (service.addTimer task id duration) service.ticks := by
  refine ⟨h.slot, fun slot timer htimer => ?_⟩
  rcases mem_timers_addTimer.1 htimer with htimer | ⟨rfl, rfl⟩
  · exact h.timers slot timer htimer
  · exact ⟨rfl, by simp only; omega⟩

theorem slot_advanceSlot :
    (service.advanceSlot.slot : ℕ) = (service.slot + 1) % maxTicksDuration := by
  have hlt := service.slot.isLt
  unfold TimerService.advanceSlot
  dsimp only
  split_ifs with hnext
  · exact (Nat.mod_eq_of_lt hnext).symm
  · have hlast : (service.slot : ℕ) + 1 = maxTicksDuration := by omega
    rw [hlast, Nat.mod_self]
    rfl

theorem Placed.advanceSlot {position : ℕ} (h : Placed service position) :
    (service.advanceSlot.slot : ℕ) = (position + 1) % maxTicksDuration := by
  rw [slot_advanceSlot, h.slot, Nat.mod_add_mod]

theorem Placed.expireSlot {position : ℕ} (h : Placed service position)
    (hticks : position + 1 ≤ service.ticks) :
    Placed service.advanceSlot.expireSlot.2 (position + 1) := by
  refine ⟨h.advanceSlot, fun slot timer htimer => ?_⟩
  obtain ⟨hmem, hdue⟩ : timer ∈ service.timers slot ∧
      (slot = service.advanceSlot.slot → service.ticks < timer.deadline) :=
    mem_timers_expireSlot.1 htimer
  obtain ⟨hslot, hlt⟩ := h.timers slot timer hmem
  refine ⟨hslot, ?_⟩
  by_contra hge
  have hdeadline : timer.deadline = position + 1 := by omega
  have hs : slot = service.advanceSlot.slot := by
    apply Fin.ext
    rw [h.advanceSlot, ← hslot, hdeadline]
  have := hdue hs
  omega

theorem Placed.expireSlots (elapsed : ℕ) {position : ℕ} (h : Placed service position)
    (hticks : service.ticks = position + elapsed) :
    Placed (expireSlots elapsed service).2 service.ticks := by
  induction elapsed generalizing service position with
  | zero =>
      rw [hticks]
      exact h
  | succ elapsed ih =>
      have hstep := h.expireSlot (by omega)
      apply ih hstep
      change service.ticks = position + 1 + elapsed
      omega

theorem ticks_expireSlots (elapsed : ℕ) :
    (TimerService.expireSlots elapsed service).2.ticks = service.ticks := by
  induction elapsed generalizing service with
  | zero => rfl
  | succ elapsed ih => exact @ih service.advanceSlot.expireSlot.2

theorem mem_expireSlots {elapsed : ℕ} {timer : Timer τ}
    (h : timer ∈ (TimerService.expireSlots elapsed service).1) :
    timer.deadline ≤ service.ticks := by
  induction elapsed generalizing service with
  | zero => cases h
  | succ elapsed ih =>
      rcases List.mem_append.1 h with h | h
      · have hslot := List.mem_filter.1 (List.mem_reverse.1 h)
        exact of_decide_eq_true hslot.2
      · exact @ih service.advanceSlot.expireSlot.2 h

/-- A timer that is due expires when its slot is among those that are visited. -/
theorem mem_expireSlots_of_due {elapsed k : ℕ} {timer : Timer τ} {slot : Fin maxTicksDuration}
    (hmem : timer ∈ service.timers slot) (hdue : timer.deadline ≤ service.ticks)
    (hk : k < elapsed) (hslot : (slot : ℕ) = (service.slot + 1 + k) % maxTicksDuration) :
    timer ∈ (TimerService.expireSlots elapsed service).1 := by
  induction elapsed generalizing service k with
  | zero => omega
  | succ elapsed ih =>
      by_cases hcurrent : slot = service.advanceSlot.slot
      · subst hcurrent
        apply List.mem_append_left
        apply List.mem_reverse.2
        exact List.mem_filter.2 ⟨hmem, decide_eq_true hdue⟩
      · have hnext := @slot_advanceSlot _ service
        obtain ⟨k, rfl⟩ : ∃ j, k = j + 1 := by
          apply Nat.exists_eq_succ_of_ne_zero
          rintro rfl
          exact hcurrent (Fin.ext (hslot.trans hnext.symm))
        have hkeep : service.advanceSlot.expireSlot.2.timers slot = service.timers slot :=
          Function.update_of_ne hcurrent _ _
        have hsame : service.advanceSlot.expireSlot.2.slot = service.advanceSlot.slot := rfl
        have hrest : (slot : ℕ) =
            (service.advanceSlot.expireSlot.2.slot + 1 + k) % maxTicksDuration := by
          rw [hslot, hsame, hnext, Nat.add_assoc (_ % _), Nat.mod_add_mod]
          congr 1
          omega
        apply List.mem_append_right
        exact @ih service.advanceSlot.expireSlot.2 k (hkeep ▸ hmem) hdue (by omega) hrest

/-- A revolution visits every slot. -/
theorem exists_visit (service : TimerService τ) (slot : Fin maxTicksDuration) :
    ∃ k < maxTicksDuration, (slot : ℕ) = (service.slot + 1 + k) % maxTicksDuration := by
  have hslot := slot.isLt
  have hposition := service.slot.isLt
  refine ⟨(slot + maxTicksDuration - (service.slot + 1)) % maxTicksDuration,
    Nat.mod_lt _ (by decide), ?_⟩
  rw [Nat.add_mod_mod, Nat.add_sub_cancel' (by omega), Nat.add_mod_right, Nat.mod_eq_of_lt hslot]

/-- A timer that is not cancelled is fired once enough time has passed. -/
theorem exists_fired {timer : Timer τ} (hholds : service.Holds timer)
    (hid : timer.id ∉ service.cancelledTimers) :
    ∃ elapsed, timer ∈ (service.collect elapsed).2.1 := by
  obtain ⟨slot, hmem⟩ := hholds
  obtain ⟨k, hk, hreach⟩ := service.exists_visit slot
  refine ⟨maxTicksDuration + timer.deadline, ?_⟩
  have hdue : timer.deadline ≤ service.ticks + (maxTicksDuration + timer.deadline) := by omega
  have hexpired := @mem_expireSlots_of_due _
    { service with ticks := service.ticks + (maxTicksDuration + timer.deadline) }
    (maxTicksDuration + timer.deadline) k timer slot hmem hdue (by omega) hreach
  have hsplit := (splitCancelled_perm _
    (TimerService.expireSlots (maxTicksDuration + timer.deadline)
      { service with
        ticks := service.ticks + (maxTicksDuration + timer.deadline) }).2.cancelledTimers).mem_iff.1
    hexpired
  rcases List.mem_append.1 hsplit with hcancelled | hfired
  · exact absurd (service.id_of_collect_cancelled hcancelled) hid
  · exact hfired

theorem mem_splitCancelled (timers : List (Timer τ)) (cancelledTimers : Finset ℕ) (i : ℕ) :
    i ∈ (splitCancelled timers cancelledTimers).2.2 ↔
      i ∈ cancelledTimers ∧ ∀ timer ∈ timers, timer.id ≠ i := by
  induction timers generalizing cancelledTimers with
  | nil => simp [splitCancelled]
  | cons t timers ih =>
      rw [splitCancelled]
      split_ifs with ht
      · rw [ih, Finset.mem_erase, List.forall_mem_cons]
        tauto
      · rw [ih, List.forall_mem_cons]
        constructor
        · rintro ⟨hi, hrest⟩
          exact ⟨hi, fun he => ht (he ▸ hi), hrest⟩
        · rintro ⟨hi, _, hrest⟩
          exact ⟨hi, hrest⟩

theorem splitCancelled_append (earlier later : List (Timer τ)) (cancelledTimers : Finset ℕ) :
    splitCancelled (earlier ++ later) cancelledTimers =
      ((splitCancelled earlier cancelledTimers).1 ++
          (splitCancelled later (splitCancelled earlier cancelledTimers).2.2).1,
        (splitCancelled earlier cancelledTimers).2.1 ++
          (splitCancelled later (splitCancelled earlier cancelledTimers).2.2).2.1,
        (splitCancelled later (splitCancelled earlier cancelledTimers).2.2).2.2) := by
  induction earlier generalizing cancelledTimers with
  | nil => rfl
  | cons t earlier ih =>
      rw [List.cons_append, splitCancelled, splitCancelled]
      split_ifs with ht
      · rw [ih]
        rfl
      · rw [ih]
        rfl

end TimerService

namespace TickRecord

def planned (record : TickRecord) : List TimerCall :=
  (TimerService.splitCancelled record.expired record.cancelledTimers).1.map .cancel ++
    (TimerService.splitCancelled record.expired record.cancelledTimers).2.1.map .fire

/-- The call on a timer that is looked up after `earlier`, which have used up the cancellations of
their identifiers: `Cancel` if `cancelled_timers_` holds its identifier at that moment. -/
def callOn (record : TickRecord) (earlier : List (Timer ℕ)) (timer : Timer ℕ) : TimerCall :=
  if timer.id ∈ record.cancelledTimers ∧ ∀ t ∈ earlier, t.id ≠ timer.id then .cancel timer
  else .fire timer

/-- A tick neither collects the timer nor calls anything on it. -/
def Ignores (record : TickRecord) (timer : Timer ℕ) : Prop :=
  timer ∉ record.expired ∧ ∀ c ∈ record.calls ++ record.pending, c.timer ≠ timer

variable {record : TickRecord}

theorem planned_timers (record : TickRecord) :
    (record.planned.map TimerCall.timer).Perm record.expired := by
  have hcancel : TimerCall.timer ∘ TimerCall.cancel = id := rfl
  have hfire : TimerCall.timer ∘ TimerCall.fire = id := rfl
  rw [planned, List.map_append, List.map_map, List.map_map, hcancel, hfire, List.map_id,
    List.map_id]
  exact (TimerService.splitCancelled_perm _ _).symm

theorem ignores_of_not_mem (hplanned : record.calls ++ record.pending = record.planned)
    {timer : Timer ℕ} (h : timer ∉ record.expired) : record.Ignores timer := by
  refine ⟨h, fun c hc he => h ?_⟩
  rw [hplanned] at hc
  apply (record.planned_timers.mem_iff).1
  exact List.mem_map.2 ⟨c, hc, he⟩

/-- Exactly one call is planned for a timer that was collected once. -/
theorem filter_planned {timer : Timer ℕ} {earlier later : List (Timer ℕ)}
    (hexpired : record.expired = earlier ++ timer :: later) (hearlier : timer ∉ earlier)
    (hlater : timer ∉ later) :
    record.planned.filter (fun c => c.timer = timer) = [record.callOn earlier timer] := by
  have hnone : ∀ (make : Timer ℕ → TimerCall), (∀ t, (make t).timer = t) →
      ∀ l : List (Timer ℕ), timer ∉ l →
        (l.map make).filter (fun c => c.timer = timer) = [] := by
    intro make hmake l hl
    rw [List.filter_eq_nil_iff]
    intro c hc
    obtain ⟨t, ht, rfl⟩ := List.mem_map.1 hc
    rw [hmake, decide_eq_true_eq]
    exact fun he => hl (he ▸ ht)
  have hmem : ∀ {l : List (Timer ℕ)} {s : Finset ℕ}, timer ∉ l →
      timer ∉ (TimerService.splitCancelled l s).1 ∧
        timer ∉ (TimerService.splitCancelled l s).2.1 := by
    intro l s hl
    rw [(TimerService.splitCancelled_perm l s).mem_iff, List.mem_append, not_or] at hl
    exact hl
  have hlookup := TimerService.mem_splitCancelled earlier record.cancelledTimers timer.id
  rw [planned, hexpired, TimerService.splitCancelled_append, TimerService.splitCancelled, callOn]
  by_cases hin : timer.id ∈ record.cancelledTimers ∧ ∀ t ∈ earlier, t.id ≠ timer.id
  · rw [if_pos (hlookup.2 hin), if_pos hin]
    simp only [List.map_append, List.map_cons, List.filter_append, List.filter_cons]
    rw [hnone .cancel (fun _ => rfl) _ (hmem hearlier).1,
      hnone .cancel (fun _ => rfl) _ (hmem hlater).1,
      hnone .fire (fun _ => rfl) _ (hmem hearlier).2, hnone .fire (fun _ => rfl) _ (hmem hlater).2]
    simp [TimerCall.timer]
  · rw [if_neg (fun h => hin (hlookup.1 h)), if_neg hin]
    simp only [List.map_append, List.map_cons, List.filter_append, List.filter_cons]
    rw [hnone .cancel (fun _ => rfl) _ (hmem hearlier).1,
      hnone .cancel (fun _ => rfl) _ (hmem hlater).1,
      hnone .fire (fun _ => rfl) _ (hmem hearlier).2, hnone .fire (fun _ => rfl) _ (hmem hlater).2]
    simp [TimerCall.timer]

end TickRecord

structure WheelInv (run : WheelRun) : Prop where
  placed : run.service.Placed run.service.ticks
  account : (run.added : Multiset (Timer ℕ)) =
    run.service.content + (run.log.flatMap (·.expired) : List (Timer ℕ))
  tasks : run.added.map (·.task) = List.range run.added.length
  window : ∀ record ∈ run.log, ∀ timer ∈ record.expired,
    record.before < timer.deadline ∧ timer.deadline ≤ record.after
  ordered : run.log.Pairwise fun newer older => older.after ≤ newer.before
  past : ∀ record ∈ run.log, record.after ≤ run.service.ticks
  planned : ∀ record ∈ run.log, record.calls ++ record.pending = record.planned
  called : ∀ record ∈ run.log.tail, record.pending = []

namespace WheelInv

variable {run run' : WheelRun}

theorem frame (h : WheelInv run) {service : TimerService ℕ}
    (htimers : service.timers = run.service.timers) (hslot : service.slot = run.service.slot)
    (hticks : service.ticks = run.service.ticks) : WheelInv { run with service } := by
  refine ⟨⟨?_, ?_⟩, ?_, h.tasks, h.window, h.ordered, ?_, h.planned, h.called⟩
  · rw [hslot, hticks]
    exact h.placed.slot
  · rw [htimers, hticks]
    exact h.placed.timers
  · rw [h.account, TimerService.content, TimerService.content, htimers]
  · rw [hticks]
    exact h.past

theorem addTimer (h : WheelInv run) {id duration : ℕ}
    (hs : run.addTimer id duration = some run') : WheelInv run' := by
  unfold WheelRun.addTimer at hs
  dsimp only at hs
  split_ifs at hs with hduration
  obtain rfl := Option.some.inj hs
  refine ⟨h.placed.addTimer _ _ hduration.1, ?_, ?_, h.window, h.ordered, h.past, h.planned,
    h.called⟩
  · rw [TimerService.content_addTimer, ← Multiset.coe_add, h.account, Multiset.coe_singleton,
      add_comm, ← add_assoc, Multiset.singleton_add]
  · rw [List.map_append, h.tasks, List.length_append, List.length_singleton, List.range_succ]
    rfl

theorem tick (h : WheelInv run) {elapsed : ℕ} (hs : run.tick elapsed = some run') :
    WheelInv run' := by
  unfold WheelRun.tick at hs
  split_ifs at hs with hpos
  obtain rfl := Option.some.inj hs
  obtain ⟨hpos, hdone⟩ := hpos
  set jumped : TimerService ℕ := { run.service with ticks := run.service.ticks + elapsed }
  have hjumped : jumped.Placed run.service.ticks := ⟨h.placed.slot, h.placed.timers⟩
  have hplaced := hjumped.expireSlots elapsed rfl
  have hticks : (TimerService.expireSlots elapsed jumped).2.ticks = run.service.ticks + elapsed :=
    TimerService.ticks_expireSlots elapsed
  refine ⟨?_, ?_, h.tasks, ?_, ?_, ?_, ?_, ?_⟩
  · dsimp only
    rw [hticks]
    exact ⟨hplaced.slot, hplaced.timers⟩
  · have hcontent := TimerService.content_expireSlots jumped elapsed
    change run.service.content = _ at hcontent
    change _ = (TimerService.expireSlots elapsed jumped).2.content + _
    rw [h.account, hcontent, List.flatMap_cons, ← Multiset.coe_add]
    abel
  · intro record hrecord timer htimer
    rcases List.mem_cons.1 hrecord with rfl | hrecord
    · have hheld : run.service.Holds timer := by
        rw [← TimerService.mem_content]
        change timer ∈ jumped.content
        rw [TimerService.content_expireSlots jumped elapsed, Multiset.mem_add]
        exact .inl (Multiset.mem_coe.2 htimer)
      obtain ⟨slot, hslot⟩ := hheld
      exact ⟨(h.placed.timers slot timer hslot).2, TimerService.mem_expireSlots htimer⟩
    · exact h.window record hrecord timer htimer
  · exact List.pairwise_cons.2 ⟨h.past, h.ordered⟩
  · intro record hrecord
    dsimp only
    rw [hticks]
    rcases List.mem_cons.1 hrecord with rfl | hrecord
    · exact le_rfl
    · exact (h.past record hrecord).trans (Nat.le_add_right _ _)
  · intro record hrecord
    rcases List.mem_cons.1 hrecord with rfl | hrecord
    · have hcancelled : (TimerService.expireSlots elapsed jumped).2.cancelledTimers =
          run.service.cancelledTimers := TimerService.cancelledTimers_expireSlots jumped elapsed
      rw [TickRecord.planned, ← hcancelled]
      rfl
    · exact h.planned record hrecord
  · intro record hrecord
    change record ∈ run.log at hrecord
    cases hlog : run.log with
    | nil => simp [hlog] at hrecord
    | cons latest log =>
        rw [hlog] at hrecord
        rcases List.mem_cons.1 hrecord with rfl | hrecord
        · exact hdone record (by simp [hlog])
        · exact h.called record (by simpa [hlog] using hrecord)

theorem call (h : WheelInv run) (hs : run.call = some run') : WheelInv run' := by
  unfold WheelRun.call at hs
  split at hs
  · cases hs
  · rename_i record log hlog
    split at hs
    · cases hs
    · rename_i c pending hpending
      obtain rfl := Option.some.inj hs
      have hmem : record ∈ run.log := by simp [hlog]
      have hrest : ∀ r ∈ log, r ∈ run.log := fun r hr => by simp [hlog, hr]
      have hordered := h.ordered
      have haccount := h.account
      have hcalled := h.called
      rw [hlog] at hordered haccount hcalled
      refine ⟨h.placed, haccount, h.tasks, ?_, ?_, ?_, ?_, hcalled⟩
      · intro r hr
        rcases List.mem_cons.1 hr with rfl | hr
        · exact h.window record hmem
        · exact h.window r (hrest r hr)
      · rw [List.pairwise_cons] at hordered ⊢
        exact hordered
      · intro r hr
        rcases List.mem_cons.1 hr with rfl | hr
        · exact h.past record hmem
        · exact h.past r (hrest r hr)
      · intro r hr
        rcases List.mem_cons.1 hr with rfl | hr
        · have hplanned := h.planned record hmem
          rw [hpending] at hplanned
          rw [List.append_assoc]
          exact hplanned
        · exact h.planned r (hrest r hr)

theorem step (h : WheelInv run) {event : WheelEvent} (hs : run.step event = some run') :
    WheelInv run' := by
  cases event with
  | getID => exact Option.some.inj hs ▸ h.frame rfl rfl rfl
  | addTimer id duration => exact h.addTimer hs
  | addNewTimer duration =>
      have hdrawn : WheelInv { run with service := run.service.getID.2 } := h.frame rfl rfl rfl
      exact hdrawn.addTimer hs
  | cancelTimer id => exact Option.some.inj hs ▸ h.frame rfl rfl rfl
  | tick elapsed => exact h.tick hs
  | call => exact h.call hs

theorem start (tickDuration : ℕ) : WheelInv (WheelRun.start tickDuration) := by
  refine ⟨⟨rfl, ?_⟩, ?_, rfl, ?_, .nil, ?_, ?_, ?_⟩
  · intro slot timer htimer
    cases htimer
  · simp [WheelRun.start, TimerService.content]
  all_goals exact fun record hrecord => absurd hrecord (List.not_mem_nil)

theorem added_nodup (h : WheelInv run) : run.added.Nodup := by
  apply List.Nodup.of_map (·.task)
  rw [h.tasks]
  exact List.nodup_range

end WheelInv

/-- The current slot is always that of `ticks_`. An added timer is in the wheel once until `ticks_`
reaches its deadline. The first `Tick` whose resulting `ticks_` has reached the deadline, and no
other one, takes it out and makes one call on it before the next `Tick`: `Cancel` if its identifier
is in `cancelled_timers_` when it is looked up, and `Fire` otherwise. -/
theorem timer_wheel {tickDuration : ℕ} {run : WheelRun}
    (hr : Reachable WheelRun.step (WheelRun.start tickDuration) run) :
    (run.service.slot : ℕ) = run.service.ticks % maxTicksDuration ∧
    (∀ record ∈ run.log.tail, record.pending = []) ∧
    ∀ timer ∈ run.added,
      (run.service.ticks < timer.deadline →
        run.service.content.count timer = 1 ∧ ∀ record ∈ run.log, record.Ignores timer) ∧
      (timer.deadline ≤ run.service.ticks →
        run.service.content.count timer = 0 ∧
        ∃ newer record older earlier later, run.log = newer ++ record :: older ∧
          (∀ r ∈ older, r.after < timer.deadline) ∧ timer.deadline ≤ record.after ∧
          (∀ r ∈ newer ++ older, r.Ignores timer) ∧
          record.expired = earlier ++ timer :: later ∧ timer ∉ earlier ++ later ∧
          (record.calls ++ record.pending).filter (fun c => c.timer = timer) =
            [record.callOn earlier timer]) := by
  have h : WheelInv run := by
    apply hr.invariant (WheelInv.start tickDuration)
    intro run event run' _ ih _ hs
    exact ih.step hs
  refine ⟨h.placed.slot, h.called, fun timer hadded => ?_⟩
  have hone : run.service.content.count timer +
      (run.log.flatMap (·.expired)).count timer = 1 := by
    rw [← Multiset.coe_count, ← Multiset.count_add, ← h.account, Multiset.coe_count]
    exact List.count_eq_one_of_mem h.added_nodup hadded
  constructor
  · intro hfuture
    have hout : timer ∉ run.log.flatMap (·.expired) := by
      intro hmem
      obtain ⟨record, hrecord, htimer⟩ := List.mem_flatMap.1 hmem
      have := (h.window record hrecord timer htimer).2
      have := h.past record hrecord
      omega
    have hzero := List.count_eq_zero.2 hout
    refine ⟨by omega, fun record hrecord => ?_⟩
    apply TickRecord.ignores_of_not_mem (h.planned record hrecord)
    exact fun htimer => hout (List.mem_flatMap.2 ⟨record, hrecord, htimer⟩)
  · intro hdue
    have hleft : run.service.content.count timer = 0 := by
      rw [Multiset.count_eq_zero, TimerService.mem_content]
      rintro ⟨slot, htimer⟩
      have := (h.placed.timers slot timer htimer).2
      omega
    refine ⟨hleft, ?_⟩
    have hmem : timer ∈ run.log.flatMap (·.expired) := by
      apply List.count_pos_iff.1
      omega
    obtain ⟨record, hrecord, htimer⟩ := List.mem_flatMap.1 hmem
    obtain ⟨newer, older, hlog⟩ := List.append_of_mem hrecord
    obtain ⟨earlier, later, hexpired⟩ := List.append_of_mem htimer
    obtain ⟨hbefore, hafter⟩ := h.window record hrecord timer htimer
    -- The timer is counted once over all ticks, and here it is.
    rw [hlog, List.flatMap_append, List.flatMap_cons, List.count_append, List.count_append,
      hexpired, List.count_append, List.count_cons_self] at hone
    have hnot : ∀ {l : List (Timer ℕ)}, l.count timer = 0 → timer ∉ l := List.count_eq_zero.1
    have hearlier : timer ∉ earlier := hnot (by omega)
    have hlater : timer ∉ later := hnot (by omega)
    have hnewer : timer ∉ newer.flatMap (·.expired) := hnot (by omega)
    have holder : timer ∉ older.flatMap (·.expired) := hnot (by omega)
    refine ⟨newer, record, older, earlier, later, hlog, fun r hr => ?_, hafter, fun r hr => ?_,
      hexpired, ?_, ?_⟩
    · have hordered := h.ordered
      rw [hlog, List.pairwise_append, List.pairwise_cons] at hordered
      exact (hordered.2.1.1 r hr).trans_lt hbefore
    · have hin : r ∈ run.log := by
        rw [hlog]
        rcases List.mem_append.1 hr with hr | hr
        · exact List.mem_append_left _ hr
        · exact List.mem_append_right _ (List.mem_cons_of_mem _ hr)
      apply TickRecord.ignores_of_not_mem (h.planned r hin)
      intro htimer'
      rcases List.mem_append.1 hr with hr | hr
      · exact hnewer (List.mem_flatMap.2 ⟨r, hr, htimer'⟩)
      · exact holder (List.mem_flatMap.2 ⟨r, hr, htimer'⟩)
    · rw [List.mem_append, not_or]
      exact ⟨hearlier, hlater⟩
    · rw [h.planned record hrecord]
      exact TickRecord.filter_planned hexpired hearlier hlater

def cancelledTimer : List WheelEvent :=
  [.addNewTimer 100, .addNewTimer 200, .cancelTimer 1, .tick 3, .call, .call]

theorem timer_wheel_cancelledTimer : ∃ run : WheelRun,
    Reachable WheelRun.step (WheelRun.start 100) run ∧
    (∃ record ∈ run.log, record.calls = [.cancel ⟨2, 1, 1⟩, .fire ⟨1, 0, 0⟩]) ∧
    (run.service.slot : ℕ) = run.service.ticks % maxTicksDuration ∧
    (∀ record ∈ run.log.tail, record.pending = []) ∧
    ∀ timer ∈ run.added,
      (run.service.ticks < timer.deadline →
        run.service.content.count timer = 1 ∧ ∀ record ∈ run.log, record.Ignores timer) ∧
      (timer.deadline ≤ run.service.ticks →
        run.service.content.count timer = 0 ∧
        ∃ newer record older earlier later, run.log = newer ++ record :: older ∧
          (∀ r ∈ older, r.after < timer.deadline) ∧ timer.deadline ≤ record.after ∧
          (∀ r ∈ newer ++ older, r.Ignores timer) ∧
          record.expired = earlier ++ timer :: later ∧ timer ∉ earlier ++ later ∧
          (record.calls ++ record.pending).filter (fun c => c.timer = timer) =
            [record.callOn earlier timer]) := by
  obtain ⟨run, hr, hcalls⟩ : ∃ run, Reachable WheelRun.step (WheelRun.start 100) run ∧
      ∃ record ∈ run.log, record.calls = [.cancel ⟨2, 1, 1⟩, .fire ⟨1, 0, 0⟩] :=
    exists_reachable cancelledTimer (by decide +kernel)
  exact ⟨run, hr, hcalls, timer_wheel hr⟩

end BroadcastService.Transport

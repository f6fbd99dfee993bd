import BroadcastService.TimerWheel

/-!
# Stopping the timer service, and timers of less than a tick

`Stop` and `Tick` walk over slots with the same `ExpireSlot`, which leaves a timer in its slot until
`ticks_` has reached its deadline. `Stop` visits all slots and does not advance `ticks_`, so it
cancels the timers that are due and no others (`stop_expires_all`). `Tick` leaves the current slot
before it expires one, so a timer that is added with its deadline at the current tick is due but not
visited before a whole revolution is over (`sub_tick_timer`).

Here `AddTimer` is called with every duration that passes its assert, zero ticks included.
-/

namespace BroadcastService.Transport
open TransitionSystem

namespace TimerService

variable {τ : Type*} {service : TimerService τ}

/-- `Stop`: the timers that `Cancel` is called on, in order, and the service after it. -/
def stop (service : TimerService τ) : List (Timer τ) × TimerService τ :=
  expireSlots maxTicksDuration service

theorem slot_expireSlots (elapsed : ℕ) :
    ((expireSlots elapsed service).2.slot : ℕ) = (service.slot + elapsed) % maxTicksDuration := by
  induction elapsed generalizing service with
  | zero => exact (Nat.mod_eq_of_lt service.slot.isLt).symm
  | succ elapsed ih =>
      have hnext : (service.advanceSlot.expireSlot.2.slot : ℕ) =
          (service.slot + 1) % maxTicksDuration := slot_advanceSlot
      have hrest := @ih service.advanceSlot.expireSlot.2
      rw [hnext, Nat.mod_add_mod, Nat.add_right_comm, Nat.add_assoc] at hrest
      exact hrest

theorem subset_expireSlot (slot : Fin maxTicksDuration) :
    service.expireSlot.2.timers slot ⊆ service.timers slot := by
  intro timer htimer
  exact (mem_timers_expireSlot.1 htimer).1

theorem subset_expireSlots (elapsed : ℕ) (slot : Fin maxTicksDuration) :
    (expireSlots elapsed service).2.timers slot ⊆ service.timers slot := by
  induction elapsed generalizing service with
  | zero => exact List.Subset.refl _
  | succ elapsed ih =>
      apply List.Subset.trans (@ih service.advanceSlot.expireSlot.2)
      exact @subset_expireSlot _ service.advanceSlot slot

/-- Only timers that are not due stay in a slot that was visited. -/
theorem not_due_of_visited {elapsed k : ℕ} {slot : Fin maxTicksDuration} {timer : Timer τ}
    (hk : k < elapsed) (hslot : (slot : ℕ) = (service.slot + 1 + k) % maxTicksDuration)
    (hmem : timer ∈ (expireSlots elapsed service).2.timers slot) :
    service.ticks < timer.deadline := by
  induction elapsed generalizing service k with
  | zero => omega
  | succ elapsed ih =>
      have hnext := @slot_advanceSlot _ service
      cases k with
      | zero =>
          obtain rfl : slot = service.advanceSlot.slot := Fin.ext (hslot.trans hnext.symm)
          have hkept := @subset_expireSlots _ service.advanceSlot.expireSlot.2 elapsed _ _ hmem
          exact (mem_timers_expireSlot.1 hkept).2 rfl
      | succ k =>
          have hrest : (slot : ℕ) =
              (service.advanceSlot.expireSlot.2.slot + 1 + k) % maxTicksDuration := by
            change (slot : ℕ) = (service.advanceSlot.slot + 1 + k) % maxTicksDuration
            rw [hslot, hnext, Nat.add_assoc (_ % _), Nat.mod_add_mod]
            congr 1
            omega
          exact @ih service.advanceSlot.expireSlot.2 k (by omega) hrest hmem

theorem timers_of_not_visited {elapsed : ℕ} {slot : Fin maxTicksDuration}
    (h : ∀ k < elapsed, (slot : ℕ) ≠ (service.slot + 1 + k) % maxTicksDuration) :
    (expireSlots elapsed service).2.timers slot = service.timers slot := by
  induction elapsed generalizing service with
  | zero => rfl
  | succ elapsed ih =>
      have hnext := @slot_advanceSlot _ service
      have hcurrent : slot ≠ service.advanceSlot.slot := by
        rintro rfl
        exact h 0 (Nat.succ_pos _) hnext
      have hkeep : service.advanceSlot.expireSlot.2.timers slot = service.timers slot :=
        Function.update_of_ne hcurrent _ _
      have hrest := @ih service.advanceSlot.expireSlot.2 ?_
      · exact hrest.trans hkeep
      · intro k hk hslot
        apply h (k + 1) (Nat.succ_lt_succ hk)
        change (slot : ℕ) = (service.advanceSlot.slot + 1 + k) % maxTicksDuration at hslot
        rw [hslot, hnext, Nat.add_assoc (_ % _), Nat.mod_add_mod]
        congr 1
        omega

theorem stop_expires_all (service : TimerService τ) :
    ((service.stop.1 : Multiset (Timer τ)) = service.content ∧
        ∀ slot, service.stop.2.timers slot = []) ↔
      ∀ timer, service.Holds timer → timer.deadline ≤ service.ticks := by
  rw [stop]
  have hcontent := content_expireSlots service maxTicksDuration
  constructor
  · rintro ⟨hcancelled, -⟩ timer hholds
    rw [← mem_content, ← hcancelled] at hholds
    exact mem_expireSlots (Multiset.mem_coe.1 hholds)
  · intro hdue
    have hempty : ∀ slot, (expireSlots maxTicksDuration service).2.timers slot = [] := by
      intro slot
      obtain ⟨k, hk, hslot⟩ := service.exists_visit slot
      apply List.eq_nil_iff_forall_not_mem.2
      intro timer hmem
      have hheld := hdue timer ⟨slot, subset_expireSlots maxTicksDuration slot hmem⟩
      have hlate := not_due_of_visited hk hslot hmem
      omega
    refine ⟨?_, hempty⟩
    have hrest : (expireSlots maxTicksDuration service).2.content = 0 := by
      simp [content, hempty]
    rw [hcontent, hrest, add_zero]

theorem mem_stop {timer : Timer τ} (h : timer ∈ service.stop.1) :
    timer.deadline ≤ service.ticks :=
  mem_expireSlots h

/-- In runs where timers are added for a tick or more, `Stop` cancels none. -/
theorem stop_cancels_none {tickDuration : ℕ} {run : WheelRun}
    (hr : Reachable WheelRun.step (WheelRun.start tickDuration) run) : run.service.stop.1 = [] := by
  have hinv : WheelInv run := hr.invariant (.start tickDuration) fun _ _ _ _ h _ hs => h.step hs
  apply List.eq_nil_iff_forall_not_mem.2
  intro timer hcancelled
  have hdue := mem_stop hcancelled
  rw [stop] at hcancelled
  have hcontent := content_expireSlots run.service maxTicksDuration
  have hheld : run.service.Holds timer := by
    rw [← mem_content, hcontent, Multiset.mem_add, Multiset.mem_coe]
    exact .inl hcancelled
  obtain ⟨slot, hslot⟩ := hheld
  have hlate := (hinv.placed.timers slot timer hslot).2
  omega

inductive Call (τ : Type*)
  | getID
  | addTimer (task : τ) (id duration : ℕ)
  | addNewTimer (task : τ) (duration : ℕ)
  | cancelTimer (id : ℕ)
  | tick (elapsed : ℕ)
  | stop

/-- `none` stands for a failed assertion, or a `Tick` without an expiration of the timer. -/
def step (service : TimerService τ) : Call τ → Option (TimerService τ)
  | .getID => some service.getID.2
  | .addTimer task id duration =>
      if duration / service.tickDuration < maxTicksDuration then
        some (service.addTimer task id duration)
      else none
  | .addNewTimer task duration =>
      if duration / service.tickDuration < maxTicksDuration then
        some (service.getID.2.addTimer task service.getID.1 duration)
      else none
  | .cancelTimer id => some (service.cancelTimer id)
  | .tick elapsed => if 0 < elapsed then some (service.collect elapsed).2.2 else none
  | .stop => some service.stop.2

theorem step_addTimer {service' : TimerService τ} {task : τ} {id duration : ℕ}
    (hs : service.step (.addTimer task id duration) = some service') :
    service' = service.addTimer task id duration := by
  simp only [step] at hs
  split_ifs at hs
  exact (Option.some.inj hs).symm

theorem step_addNewTimer {service' : TimerService τ} {task : τ} {duration : ℕ}
    (hs : service.step (.addNewTimer task duration) = some service') :
    service' = service.getID.2.addTimer task service.getID.1 duration := by
  simp only [step] at hs
  split_ifs at hs
  exact (Option.some.inj hs).symm

/-- The current slot is that of the current tick, and every timer is in the slot of its deadline. -/
structure InSlots (service : TimerService τ) : Prop where
  slot : (service.slot : ℕ) = service.ticks % maxTicksDuration
  timers : ∀ slot, ∀ timer ∈ service.timers slot, timer.deadline % maxTicksDuration = slot

namespace InSlots

theorem addTimer (h : service.InSlots) (task : τ) (id duration : ℕ) :
    (service.addTimer task id duration).InSlots := by
  refine ⟨h.slot, fun slot timer htimer => ?_⟩
  rcases mem_timers_addTimer.1 htimer with htimer | ⟨rfl, rfl⟩
  · exact h.timers slot timer htimer
  · rfl

theorem expireSlots (h : ∀ slot, ∀ timer ∈ service.timers slot,
      timer.deadline % maxTicksDuration = slot) (elapsed : ℕ)
    (hslot : (service.slot + elapsed) % maxTicksDuration = service.ticks % maxTicksDuration) :
    (TimerService.expireSlots elapsed service).2.InSlots := by
  constructor
  · rw [slot_expireSlots, ticks_expireSlots, hslot]
  · intro slot timer htimer
    exact h slot timer (subset_expireSlots elapsed slot htimer)

theorem step {service' : TimerService τ} (h : service.InSlots) {call : Call τ}
    (hs : service.step call = some service') : service'.InSlots := by
  cases call with
  | getID =>
      obtain rfl := Option.some.inj hs
      exact ⟨h.slot, h.timers⟩
  | addTimer task id duration =>
      obtain rfl := step_addTimer hs
      exact h.addTimer task id duration
  | addNewTimer task duration =>
      obtain rfl := step_addNewTimer hs
      have hdrawn : service.getID.2.InSlots := ⟨h.slot, h.timers⟩
      exact hdrawn.addTimer task _ duration
  | cancelTimer id =>
      obtain rfl := Option.some.inj hs
      exact ⟨h.slot, h.timers⟩
  | tick elapsed =>
      simp only [TimerService.step] at hs
      split_ifs at hs
      obtain rfl := Option.some.inj hs
      have hcollected := @expireSlots _ { service with ticks := service.ticks + elapsed } h.timers
        elapsed (by simp only [h.slot, Nat.mod_add_mod])
      exact ⟨hcollected.slot, hcollected.timers⟩
  | stop =>
      obtain rfl := Option.some.inj hs
      rw [stop]
      apply expireSlots h.timers
      rw [h.slot, Nat.mod_add_mod, Nat.add_mod_right]

end InSlots

theorem inSlots_start (tickDuration : ℕ) : ({ tickDuration } : TimerService τ).InSlots :=
  ⟨rfl, fun _ _ htimer => absurd htimer List.not_mem_nil⟩

theorem inSlots_of_reachable {tickDuration : ℕ}
    (hr : Reachable step ({ tickDuration } : TimerService τ) service) : service.InSlots :=
  hr.invariant (inSlots_start tickDuration) fun _ _ _ _ h _ hs => h.step hs

def onePending : TimerService ℕ := addTimer { tickDuration := 100 } 7 0 100

theorem stop_leaves_timer :
    Reachable step { tickDuration := 100 } onePending ∧ onePending.Holds ⟨1, 0, 7⟩ ∧
      ¬((onePending.stop.1 : Multiset (Timer ℕ)) = onePending.content ∧
        ∀ slot, onePending.stop.2.timers slot = []) := by
  have hholds : onePending.Holds ⟨1, 0, 7⟩ := (holds_addTimer _).2 (.inr rfl)
  refine ⟨.tail .refl trivial (a := .addTimer 7 0 100) rfl, hholds, ?_⟩
  rintro ⟨hcancelled, -⟩
  rw [← mem_content, ← hcancelled] at hholds
  have hdue := mem_stop (Multiset.mem_coe.1 hholds)
  exact absurd hdue (by decide)

/-- Neither a `Tick` nor `Stop`. -/
def Call.KeepsTimers : Call τ → Prop
  | .tick _ => False
  | .stop => False
  | _ => True

/-- What the calls between two ticks leave as it is. -/
structure Waits (timer : Timer τ) (slot : Fin maxTicksDuration) (ticks : ℕ)
    (service : TimerService τ) : Prop where
  inSlots : service.InSlots
  current : service.slot = slot
  now : service.ticks = ticks
  mem : timer ∈ service.timers slot

theorem Waits.step {timer : Timer τ} {slot : Fin maxTicksDuration} {ticks : ℕ}
    {service' : TimerService τ} (h : Waits timer slot ticks service) {call : Call τ}
    (hcall : call.KeepsTimers) (hs : service.step call = some service') :
    Waits timer slot ticks service' := by
  have hslots := h.inSlots.step hs
  cases call with
  | getID =>
      obtain rfl := Option.some.inj hs
      exact ⟨hslots, h.current, h.now, h.mem⟩
  | addTimer task id duration =>
      obtain rfl := step_addTimer hs
      exact ⟨hslots, h.current, h.now, mem_timers_addTimer.2 (.inl h.mem)⟩
  | addNewTimer task duration =>
      obtain rfl := step_addNewTimer hs
      exact ⟨hslots, h.current, h.now, mem_timers_addTimer.2 (.inl h.mem)⟩
  | cancelTimer id =>
      obtain rfl := Option.some.inj hs
      exact ⟨hslots, h.current, h.now, h.mem⟩
  | tick elapsed => exact hcall.elim
  | stop => exact hcall.elim

theorem waits_of_addTimer (h : service.InSlots) (task : τ) (id : ℕ) {duration : ℕ}
    (hduration : duration < service.tickDuration) :
    Waits ⟨service.ticks, id, task⟩ service.slot service.ticks
      (service.addTimer task id duration) := by
  have hzero : duration / service.tickDuration = 0 := Nat.div_eq_of_lt hduration
  have hslot : Fin.ofNat maxTicksDuration service.ticks = service.slot := Fin.ext h.slot.symm
  refine ⟨h.addTimer task id duration, rfl, rfl, ?_⟩
  rw [mem_timers_addTimer, hzero, Nat.add_zero]
  exact .inr ⟨hslot.symm, rfl⟩

theorem Waits.not_collected {timer : Timer τ} (h : Waits timer service.slot service.ticks service)
    {elapsed : ℕ} (helapsed : elapsed < maxTicksDuration) :
    (service.collect elapsed).2.2.Holds timer := by
  refine ⟨service.slot, ?_⟩
  change timer ∈ (TimerService.expireSlots elapsed
    { service with ticks := service.ticks + elapsed }).2.timers service.slot
  rw [timers_of_not_visited]
  · exact h.mem
  · intro k hk hvisited
    have hslot := service.slot.isLt
    simp only [maxTicksDuration] at *
    omega

theorem Waits.collected {timer : Timer τ} (h : Waits timer service.slot service.ticks service)
    (hdeadline : timer.deadline = service.ticks) {elapsed : ℕ}
    (helapsed : maxTicksDuration ≤ elapsed) :
    (timer ∈ (service.collect elapsed).1 ∨ timer ∈ (service.collect elapsed).2.1) ∧
      ¬(service.collect elapsed).2.2.Holds timer := by
  set jumped : TimerService τ := { service with ticks := service.ticks + elapsed }
  obtain ⟨k, hk, hvisited⟩ := jumped.exists_visit service.slot
  have hdue : timer.deadline ≤ jumped.ticks := by
    rw [hdeadline]
    exact Nat.le_add_right _ _
  constructor
  · have hmem : timer ∈ jumped.timers service.slot := h.mem
    have hexpired := mem_expireSlots_of_due hmem hdue (hk.trans_le helapsed) hvisited
    exact List.mem_append.1 ((splitCancelled_perm _ _).mem_iff.1 hexpired)
  · rintro ⟨slot, hheld⟩
    change timer ∈ (TimerService.expireSlots elapsed jumped).2.timers slot at hheld
    have hslot : slot = service.slot := by
      apply Fin.ext
      have hbefore : timer ∈ service.timers slot :=
        @subset_expireSlots _ jumped elapsed slot _ hheld
      rw [← h.inSlots.timers slot timer hbefore, hdeadline, ← h.inSlots.slot]
    subst hslot
    have hlate := not_due_of_visited (hk.trans_le helapsed) hvisited hheld
    omega

/-- A timer of zero ticks, added by one of the two overloads, is taken out of the wheel by the next
`Tick` exactly if that is a revolution late. -/
theorem sub_tick_timer {tickDuration : ℕ} {service inserted later : TimerService τ}
    (hr : Reachable TimerService.step { tickDuration } service) {task : τ} {id duration : ℕ}
    (hduration : duration < service.tickDuration)
    (hadd : service.step (.addTimer task id duration) = some inserted ∨
      service.step (.addNewTimer task duration) = some inserted ∧ id = service.getID.1)
    (hlater : ReachableIn TimerService.step (fun _ call => call.KeepsTimers) inserted later)
    (elapsed : ℕ) :
    ((⟨service.ticks, id, task⟩ ∈ (later.collect elapsed).1 ∨
          ⟨service.ticks, id, task⟩ ∈ (later.collect elapsed).2.1) ∧
        ¬(later.collect elapsed).2.2.Holds ⟨service.ticks, id, task⟩) ↔
      maxTicksDuration ≤ elapsed := by
  have hslots := inSlots_of_reachable hr
  have hinserted : Waits ⟨service.ticks, id, task⟩ service.slot service.ticks inserted := by
    rcases hadd with hadd | ⟨hadd, rfl⟩
    · obtain rfl := step_addTimer hadd
      exact waits_of_addTimer hslots task id hduration
    · obtain rfl := step_addNewTimer hadd
      have hdrawn : service.getID.2.InSlots := ⟨hslots.slot, hslots.timers⟩
      exact waits_of_addTimer hdrawn task _ hduration
  have hwaits : Waits ⟨service.ticks, id, task⟩ service.slot service.ticks later :=
    hlater.invariant hinserted fun _ _ _ _ h hcall hs => h.step hcall hs
  have hnow : Waits ⟨service.ticks, id, task⟩ later.slot later.ticks later :=
    ⟨hwaits.inSlots, rfl, rfl, hwaits.current ▸ hwaits.mem⟩
  constructor
  · rintro ⟨-, hgone⟩
    by_contra hshort
    exact hgone (hnow.not_collected (not_le.1 hshort))
  · intro hlong
    exact hnow.collected hwaits.now.symm hlong

def halfTick : TimerService ℕ := addTimer { tickDuration := 100 } 7 0 50

theorem sub_tick_timer_revolution :
    (⟨0, 0, 7⟩ ∈ (halfTick.collect 1000).1 ∨ ⟨0, 0, 7⟩ ∈ (halfTick.collect 1000).2.1) ∧
      ¬(halfTick.collect 1000).2.2.Holds ⟨0, 0, 7⟩ := by
  have hstart : Reachable step { tickDuration := 100 } ({ tickDuration := 100 } : TimerService ℕ) :=
    .refl
  have hadd : step { tickDuration := 100 } (.addTimer 7 0 50) = some halfTick := rfl
  have hduration : 50 < ({ tickDuration := 100 } : TimerService ℕ).tickDuration := by decide
  exact (sub_tick_timer hstart hduration (.inl hadd) .refl 1000).2 le_rfl

theorem sub_tick_timer_missed :
    Reachable step { tickDuration := 100 } halfTick ∧
      ¬((⟨0, 0, 7⟩ ∈ (halfTick.collect 1).1 ∨ ⟨0, 0, 7⟩ ∈ (halfTick.collect 1).2.1) ∧
        ¬(halfTick.collect 1).2.2.Holds ⟨0, 0, 7⟩) := by
  refine ⟨.tail .refl trivial (a := .addTimer 7 0 50) rfl, ?_⟩
  rintro ⟨-, hgone⟩
  apply hgone
  have hduration : 50 < ({ tickDuration := 100 } : TimerService ℕ).tickDuration := by decide
  have hwaits : Waits ⟨0, 0, 7⟩ halfTick.slot halfTick.ticks halfTick :=
    waits_of_addTimer (inSlots_start 100) 7 0 hduration
  exact hwaits.not_collected (by decide)

end TimerService

end BroadcastService.Transport

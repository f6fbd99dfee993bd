import BroadcastService.TransitionSystem
import Mathlib.Tactic

/-!
# Strands

`runtime/strand_impl.hpp`, shared by the packet batcher and the asynchronous mutex. Every atomic
operation is one step: a call of `Process` pushes a task and then counts it, a run of `Task` takes
all tasks, processes them one by one and subtracts their number. Any number of calls and runs may be
under way. `scheduled` counts the calls of `Execute(this)` whose run has not started.
-/

namespace BroadcastService.Runtime
open TransitionSystem

variable {α : Type*}

/-- A run of `Task` in `ProcessBatch`: what is left of the batch and the tasks counted so far. -/
structure BatchRun (α : Type*) where
  batch : List α
  numTasks : ℕ

structure Strand (α : Type*) where
  tasks : List α := []
  submitted : ℤ := 0
  refs : ℕ := 1
  counting : ℕ := 0
  scheduled : ℕ := 0
  running : List (BatchRun α) := []
  pushed : List α := []
  processed : List α := []
  emptyBatches : ℕ := 0

inductive StrandEvent (α : Type*)
  | push (task : α)
  | fetchAdd
  | tryPopAll
  | process (i : ℕ)
  | fetchSub (i : ℕ)

namespace Strand

def push (strand : Strand α) (task : α) : Strand α :=
  { strand with
    tasks := strand.tasks ++ [task]
    counting := strand.counting + 1
    pushed := strand.pushed ++ [task] }

/-- `Refer` and `Execute(this)`. -/
def execute (strand : Strand α) : Strand α :=
  { strand with refs := strand.refs + 1, scheduled := strand.scheduled + 1 }

def fetchAdd (strand : Strand α) : Option (Strand α) :=
  if strand.counting = 0 then none
  else
    let counted :=
      { strand with counting := strand.counting - 1, submitted := strand.submitted + 1 }
    if strand.submitted = 0 then some counted.execute else some counted

/-- An empty batch ends the run without `Derefer`. -/
def tryPopAll (strand : Strand α) : Option (Strand α) :=
  if strand.scheduled = 0 then none
  else
    let popped := { strand with scheduled := strand.scheduled - 1, tasks := [] }
    match strand.tasks with
    | [] => some { popped with emptyBatches := strand.emptyBatches + 1 }
    | batch => some { popped with running := strand.running ++ [⟨batch, 0⟩] }

def process (strand : Strand α) (i : ℕ) : Option (Strand α) :=
  match strand.running[i]? with
  | some ⟨task :: batch, numTasks⟩ =>
      some { strand with
        running := strand.running.set i ⟨batch, numTasks + 1⟩
        processed := strand.processed ++ [task] }
  | _ => none

/-- The end of a run: subtract, resubmit if there are additional tasks, `Derefer`. -/
def fetchSub (strand : Strand α) (i : ℕ) : Option (Strand α) :=
  match strand.running[i]? with
  | some ⟨[], numTasks⟩ =>
      let done :=
        { strand with
          running := strand.running.eraseIdx i
          submitted := strand.submitted - numTasks }
      let resubmitted := if (numTasks : ℤ) < strand.submitted then done.execute else done
      some { resubmitted with refs := resubmitted.refs - 1 }
  | _ => none

def step (strand : Strand α) : StrandEvent α → Option (Strand α)
  | .push task => some (strand.push task)
  | .fetchAdd => strand.fetchAdd
  | .tryPopAll => strand.tryPopAll
  | .process i => strand.process i
  | .fetchSub i => strand.fetchSub i

/-- The tasks of the batches under way, processed or not. -/
def inBatches (strand : Strand α) : ℕ :=
  (strand.running.map fun run => run.numTasks + run.batch.length).sum

/-- Whether a run is scheduled or under way is decided by the sign of `submitted`. -/
inductive Activity (submitted : ℤ) (scheduled : ℕ) (running : List (BatchRun α)) : Prop
  | idle (hsubmitted : submitted ≤ 0) (hscheduled : scheduled = 0) (hrunning : running = [])
  | scheduled (hsubmitted : 0 < submitted) (hscheduled : scheduled = 1) (hrunning : running = [])
  | running (run : BatchRun α) (hsubmitted : 0 < submitted) (hscheduled : scheduled = 0)
      (hrunning : running = [run])

structure Inv (strand : Strand α) : Prop where
  order : strand.processed ++ (strand.running.flatMap (·.batch) ++ strand.tasks) = strand.pushed
  balance : strand.submitted + strand.counting = strand.tasks.length + strand.inBatches
  activity : Activity strand.submitted strand.scheduled strand.running
  refs : strand.refs = 1 + strand.scheduled + strand.running.length
  emptyBatches : strand.emptyBatches = 0

variable {strand strand' : Strand α}

theorem Inv.push (h : Inv strand) (task : α) : Inv (strand.push task) := by
  constructor
  · have horder := h.order
    simp only [Strand.push, ← List.append_assoc] at horder ⊢
    rw [horder]
  · have hbalance := h.balance
    simp only [Strand.push, inBatches, List.length_append, List.length_singleton, Nat.cast_add,
      Nat.cast_one] at hbalance ⊢
    omega
  · exact h.activity
  · exact h.refs
  · exact h.emptyBatches

/-- Only a count that starts from 0 schedules a run, and then no other run is active. -/
theorem Inv.fetchAdd (h : Inv strand) (hs : strand.fetchAdd = some strand') : Inv strand' := by
  unfold Strand.fetchAdd at hs
  dsimp only at hs
  split_ifs at hs with hcounting hzero
  · obtain rfl := Option.some.inj hs
    have hbalance := h.balance
    have hrefs := h.refs
    obtain ⟨hscheduled, hrunning⟩ : strand.scheduled = 0 ∧ strand.running = [] := by
      cases h.activity with
      | idle _ hscheduled hrunning => exact ⟨hscheduled, hrunning⟩
      | scheduled hsubmitted => omega
      | running _ hsubmitted => omega
    constructor
    · exact h.order
    · simp only [execute, inBatches] at hbalance ⊢
      omega
    · apply Activity.scheduled
      · simp only [execute]
        omega
      · simp only [execute]
        omega
      · exact hrunning
    · simp only [execute]
      omega
    · exact h.emptyBatches
  · obtain rfl := Option.some.inj hs
    have hbalance := h.balance
    constructor
    · exact h.order
    · simp only [inBatches] at hbalance ⊢
      omega
    · dsimp only
      cases h.activity with
      | idle hsubmitted hscheduled hrunning => exact .idle (by omega) hscheduled hrunning
      | scheduled hsubmitted hscheduled hrunning => exact .scheduled (by omega) hscheduled hrunning
      | running run hsubmitted hscheduled hrunning =>
          exact .running run (by omega) hscheduled hrunning
    · exact h.refs
    · exact h.emptyBatches

/-- A scheduled run finds a task: everything counted is in the queue. -/
theorem Inv.tryPopAll (h : Inv strand) (hs : strand.tryPopAll = some strand') : Inv strand' := by
  unfold Strand.tryPopAll at hs
  dsimp only at hs
  split_ifs at hs with hscheduled
  obtain ⟨hsubmitted, hone, hrunning⟩ :
      0 < strand.submitted ∧ strand.scheduled = 1 ∧ strand.running = [] := by
    cases h.activity with
    | idle _ hzero => omega
    | scheduled hsubmitted hone hrunning => exact ⟨hsubmitted, hone, hrunning⟩
    | running _ _ hzero => omega
  have horder := h.order
  have hbalance := h.balance
  have hrefs := h.refs
  simp only [inBatches, hrunning, List.map_nil, List.sum_nil, List.length_nil, List.flatMap_nil,
    List.nil_append] at horder hbalance hrefs
  split at hs
  · rename_i hempty
    rw [hempty, List.length_nil] at hbalance
    omega
  · obtain rfl := Option.some.inj hs
    constructor
    · simpa [hrunning] using horder
    · simp only [inBatches, hrunning]
      simp only [List.nil_append, List.map_cons, List.map_nil, List.sum_cons, List.sum_nil,
        List.length_nil]
      push_cast
      omega
    · apply Activity.running ⟨strand.tasks, 0⟩ hsubmitted
      · simp only
        omega
      · simp [hrunning]
    · simp only [hrunning, List.nil_append, List.length_singleton]
      omega
    · exact h.emptyBatches

theorem only_run {run run' : BatchRun α} (hrunning : strand.running = [run]) {i : ℕ}
    (hi : strand.running[i]? = some run') : i = 0 ∧ run = run' := by
  rw [hrunning] at hi
  cases i with
  | zero => exact ⟨rfl, Option.some.inj hi⟩
  | succ i => simp at hi

theorem Inv.process (h : Inv strand) {i : ℕ} (hs : strand.process i = some strand') :
    Inv strand' := by
  unfold Strand.process at hs
  split at hs
  · rename_i task batch numTasks hi
    obtain rfl := Option.some.inj hs
    cases h.activity with
    | idle _ _ hrunning => simp [hrunning] at hi
    | scheduled _ _ hrunning => simp [hrunning] at hi
    | running run hsubmitted hscheduled hrunning =>
        obtain ⟨rfl, rfl⟩ := only_run hrunning hi
        have horder := h.order
        have hbalance := h.balance
        have hrefs := h.refs
        simp only [inBatches, hrunning, List.map_cons, List.map_nil, List.sum_cons, List.sum_nil,
          List.length_cons, List.length_nil, List.flatMap_cons, List.flatMap_nil,
          List.append_nil] at horder hbalance hrefs
        constructor
        · simpa [hrunning] using horder
        · simp only [inBatches, hrunning, List.set_cons_zero, List.map_cons, List.map_nil,
            List.sum_cons, List.sum_nil]
          push_cast at hbalance ⊢
          omega
        · apply Activity.running ⟨batch, numTasks + 1⟩ hsubmitted hscheduled
          simp [hrunning]
        · simp only [hrunning, List.set_cons_zero, List.length_singleton]
          omega
        · exact h.emptyBatches
  · cases hs

/-- A run that ends while more tasks are counted than it processed is scheduled again, and otherwise
nothing is active any more. -/
theorem Inv.fetchSub (h : Inv strand) {i : ℕ} (hs : strand.fetchSub i = some strand') :
    Inv strand' := by
  unfold Strand.fetchSub at hs
  split at hs
  · rename_i numTasks hi
    obtain rfl := Option.some.inj hs
    cases h.activity with
    | idle _ _ hrunning => simp [hrunning] at hi
    | scheduled _ _ hrunning => simp [hrunning] at hi
    | running run hsubmitted hscheduled hrunning =>
        obtain ⟨rfl, rfl⟩ := only_run hrunning hi
        have horder := h.order
        have hbalance := h.balance
        have hrefs := h.refs
        simp only [inBatches, hrunning, List.map_cons, List.map_nil, List.sum_cons, List.sum_nil,
          List.length_cons, List.length_nil, List.flatMap_cons, List.flatMap_nil, List.nil_append,
          List.append_nil] at horder hbalance hrefs
        have herase : strand.running.eraseIdx 0 = [] := by simp [hrunning]
        by_cases hmore : (numTasks : ℤ) < strand.submitted
        · simp only [hmore, if_true, execute, herase]
          constructor
          · simpa using horder
          · simp only [inBatches, List.map_nil, List.sum_nil]
            push_cast at hbalance ⊢
            omega
          · apply Activity.scheduled
            · simp only
              omega
            · simp only
              omega
            · rfl
          · simp only [List.length_nil]
            omega
          · exact h.emptyBatches
        · simp only [hmore, if_false, herase]
          constructor
          · simpa using horder
          · simp only [inBatches, List.map_nil, List.sum_nil]
            push_cast at hbalance ⊢
            omega
          · apply Activity.idle
            · simp only
              omega
            · exact hscheduled
            · rfl
          · simp only [List.length_nil]
            omega
          · exact h.emptyBatches
  · cases hs

theorem Inv.step (h : Inv strand) {event : StrandEvent α} (hs : strand.step event = some strand') :
    Inv strand' := by
  cases event with
  | push task => exact Option.some.inj hs ▸ h.push task
  | fetchAdd => exact h.fetchAdd hs
  | tryPopAll => exact h.tryPopAll hs
  | process i => exact h.process hs
  | fetchSub i => exact h.fetchSub hs

theorem inv_of_reachable (hr : Reachable step {} strand) : Inv strand := by
  apply hr.invariant
  · exact ⟨rfl, rfl, .idle le_rfl rfl rfl, rfl, rfl⟩
  · intro strand event strand' _ ih _ hs
    exact ih.step hs

end Strand

/-- At most one run is scheduled or under way, tasks are processed once and in the order of pushing,
no run finds the queue empty, every reference is given back, and a strand at rest has nothing left
to do. -/
theorem strand_safety {strand : Strand α} (hr : Reachable Strand.step {} strand) :
    strand.scheduled + strand.running.length ≤ 1 ∧
    strand.processed ++ (strand.running.flatMap (·.batch) ++ strand.tasks) = strand.pushed ∧
    strand.emptyBatches = 0 ∧
    strand.refs = 1 + strand.scheduled + strand.running.length ∧
    (strand.counting = 0 → strand.scheduled = 0 → strand.running = [] →
      strand.tasks = [] ∧ strand.submitted = 0 ∧ strand.processed = strand.pushed) := by
  have h := Strand.inv_of_reachable hr
  refine ⟨?_, h.order, h.emptyBatches, h.refs, fun hcounting hscheduled hrunning => ?_⟩
  · cases h.activity with
    | idle _ hscheduled hrunning => simp [hscheduled, hrunning]
    | scheduled _ hscheduled hrunning => simp [hscheduled, hrunning]
    | running run _ hscheduled hrunning => simp [hscheduled, hrunning]
  · have hsubmitted : strand.submitted ≤ 0 := by
      cases h.activity with
      | idle hsubmitted => exact hsubmitted
      | scheduled _ hone => omega
      | running run _ _ hone => simp [hone] at hrunning
    have hbalance := h.balance
    simp only [Strand.inBatches, hrunning, List.map_nil, List.sum_nil] at hbalance
    have hlength : strand.tasks.length = 0 := by omega
    have htasks := List.length_eq_zero_iff.1 hlength
    refine ⟨htasks, by omega, ?_⟩
    have horder := h.order
    simpa [hrunning, htasks] using horder

/-- The second task is pushed before the first is counted, taken with it and counted after the run:
`submitted` is negative in between. -/
def latelyCounted (first second : α) : List (StrandEvent α) :=
  [.push first, .push second, .fetchAdd, .tryPopAll, .process 0, .process 0, .fetchSub 0, .fetchAdd]

theorem strand_safety_latelyCounted : ∃ strand : Strand Bool, Reachable Strand.step {} strand ∧
    strand.counting = 0 ∧ strand.processed = [false, true] ∧
    strand.scheduled + strand.running.length ≤ 1 ∧
    strand.processed ++ (strand.running.flatMap (·.batch) ++ strand.tasks) = strand.pushed ∧
    strand.emptyBatches = 0 ∧
    strand.refs = 1 + strand.scheduled + strand.running.length ∧
    (strand.counting = 0 → strand.scheduled = 0 → strand.running = [] →
      strand.tasks = [] ∧ strand.submitted = 0 ∧ strand.processed = strand.pushed) := by
  obtain ⟨strand, hrun, hcounting, hprocessed⟩ : ∃ strand,
      run Strand.step {} (latelyCounted false true) = some strand ∧ strand.counting = 0 ∧
        strand.processed = [false, true] := ⟨_, rfl, rfl, rfl⟩
  have hr := reachable_of_run hrun
  exact ⟨strand, hr, hcounting, hprocessed, strand_safety hr⟩

end BroadcastService.Runtime

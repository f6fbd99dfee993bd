import BroadcastService.FairLossChannel

/-!
# The calls of a shared budget

`concurrency/budget.hpp` over whole sequences of `Credit` and `TopUp`. No sequence takes the counter
above `max_budget_` or hands out more than was put in. `TopUp` clips the counter after a machine
addition: as long as none of the additions overflows the counter saturates, and a `TopUp` whose
addition does overflow leaves less than `max_budget_`, so it never stores the exact value.
-/

namespace BroadcastService.Transport

namespace SharedBudget

def make (initialBudget maxBudget : UInt64) : SharedBudget :=
  ⟨initialBudget.toNat, maxBudget.toNat⟩

/-- `std::numeric_limits<CounterT>::max()`, the maximum of the constructor with one argument and the
largest credit of `Credit()`. -/
def maxCounter : UInt64 := 18446744073709551615

variable {budget : SharedBudget} {credit : ℕ}

theorem credit_conserves (budget : SharedBudget) (maxCredit : ℕ) :
    (budget.credit maxCredit).2.counter + (budget.credit maxCredit).1 = budget.counter :=
  Nat.sub_add_cancel (Nat.min_le_left _ _)

theorem counter_topUp_of_lt (h : budget.counter + credit < counterSpace) :
    (budget.topUp credit).counter = min (budget.counter + credit) budget.maxBudget := by
  rw [topUp, Nat.mod_eq_of_lt h]

theorem counter_topUp_le (budget : SharedBudget) (credit : ℕ) :
    (budget.topUp credit).counter ≤ budget.counter + credit :=
  (Nat.min_le_left _ _).trans (Nat.mod_le _ _)

/-- What the addition leaves when it overflows is below the maximum, which is the exact result. -/
theorem counter_topUp_of_le (hcounter : budget.counter ≤ budget.maxBudget)
    (hmax : budget.maxBudget < counterSpace) (hcredit : credit < counterSpace)
    (h : counterSpace ≤ budget.counter + credit) :
    (budget.topUp credit).counter < min (budget.counter + credit) budget.maxBudget := by
  have hwrap : (budget.counter + credit) % counterSpace =
      budget.counter + credit - counterSpace := by
    rw [Nat.mod_eq_sub_mod h, Nat.mod_eq_of_lt (by omega)]
  have hlt : budget.counter + credit - counterSpace < budget.maxBudget := by omega
  rw [topUp, hwrap]
  exact (Nat.min_le_left _ _).trans_lt (lt_min (by omega) hlt)

end SharedBudget

inductive BudgetCall
  | credit (maxCredit : UInt64)
  | topUp (credit : UInt64)

/-- A budget with the sums of the amounts returned by `Credit` and given to `TopUp`. -/
structure BudgetRun where
  budget : SharedBudget
  credited : ℕ := 0
  toppedUp : ℕ := 0

namespace BudgetRun

def call (run : BudgetRun) : BudgetCall → BudgetRun
  | .credit maxCredit =>
      let (credit, budget) := run.budget.credit maxCredit.toNat
      { run with budget, credited := run.credited + credit }
  | .topUp credit =>
      { run with
        budget := run.budget.topUp credit.toNat
        toppedUp := run.toppedUp + credit.toNat }

def after (initialBudget maxBudget : UInt64) (calls : List BudgetCall) : BudgetRun :=
  calls.foldl call { budget := .make initialBudget maxBudget }

/-- The budget is a saturating counter along the calls: after each of them the counter is within the
maximum and no more was handed out than was put in, and each `TopUp` stores the exact sum clipped to
the maximum. -/
structure Saturates (initialBudget maxBudget : UInt64) (calls : List BudgetCall) : Prop where
  counter_le : ∀ l, l <+: calls →
    (after initialBudget maxBudget l).budget.counter ≤ maxBudget.toNat
  credited_le : ∀ l, l <+: calls → (after initialBudget maxBudget l).credited ≤
    initialBudget.toNat + (after initialBudget maxBudget l).toppedUp
  topUp : ∀ l credit, l ++ [BudgetCall.topUp credit] <+: calls →
    (after initialBudget maxBudget l).budget.counter ≤
        (after initialBudget maxBudget (l ++ [BudgetCall.topUp credit])).budget.counter ∧
      (after initialBudget maxBudget (l ++ [BudgetCall.topUp credit])).budget.counter =
        min ((after initialBudget maxBudget l).budget.counter + credit.toNat) maxBudget.toNat

/-- What every call keeps. -/
structure Kept (initialBudget maxBudget : UInt64) (run : BudgetRun) : Prop where
  maxBudget : run.budget.maxBudget = maxBudget.toNat
  counter_le : run.budget.counter ≤ run.budget.maxBudget
  conserved : run.budget.counter + run.credited ≤ initialBudget.toNat + run.toppedUp

variable {initialBudget maxBudget : UInt64} {run : BudgetRun}

theorem Kept.call (h : run.Kept initialBudget maxBudget) (c : BudgetCall) :
    (run.call c).Kept initialBudget maxBudget := by
  obtain ⟨hmax, hcounter, hconserved⟩ := h
  cases c with
  | credit maxCredit =>
      have hsplit := run.budget.credit_conserves maxCredit.toNat
      refine ⟨hmax, (Nat.sub_le _ _).trans hcounter, ?_⟩
      change (run.budget.credit maxCredit.toNat).2.counter +
        (run.credited + (run.budget.credit maxCredit.toNat).1) ≤ _ + run.toppedUp
      omega
  | topUp credit =>
      have hle := run.budget.counter_topUp_le credit.toNat
      refine ⟨hmax, Nat.min_le_right _ _, ?_⟩
      change (run.budget.topUp credit.toNat).counter + run.credited ≤
        _ + (run.toppedUp + credit.toNat)
      omega

theorem after_append (l : List BudgetCall) (c : BudgetCall) :
    after initialBudget maxBudget (l ++ [c]) = (after initialBudget maxBudget l).call c := by
  rw [after, List.foldl_append]
  rfl

theorem kept_after (h : initialBudget ≤ maxBudget) (calls : List BudgetCall) :
    (after initialBudget maxBudget calls).Kept initialBudget maxBudget := by
  induction calls using List.reverseRecOn with
  | nil => exact ⟨rfl, h, le_rfl⟩
  | append_singleton l c ih =>
      rw [after_append]
      exact ih.call c

/-- A `TopUp` stores the clipped sum, which is no decrease, exactly when its addition does not
overflow. -/
theorem Kept.topUp_iff (h : run.Kept initialBudget maxBudget) (credit : UInt64) :
    (run.budget.counter ≤ (run.call (.topUp credit)).budget.counter ∧
      (run.call (.topUp credit)).budget.counter =
        min (run.budget.counter + credit.toNat) maxBudget.toNat) ↔
      run.budget.counter + credit.toNat < counterSpace := by
  rw [← h.maxBudget]
  constructor
  · rintro ⟨-, hexact⟩
    by_contra hover
    have hmax : run.budget.maxBudget < counterSpace := h.maxBudget ▸ maxBudget.toNat_lt
    have hlt := SharedBudget.counter_topUp_of_le h.counter_le hmax credit.toNat_lt (not_lt.1 hover)
    exact hlt.ne hexact
  · intro hfits
    have hexact := SharedBudget.counter_topUp_of_lt hfits
    refine ⟨?_, hexact⟩
    calc run.budget.counter
        ≤ min (run.budget.counter + credit.toNat) run.budget.maxBudget :=
          le_min (Nat.le_add_right _ _) h.counter_le
      _ = (run.call (.topUp credit)).budget.counter := hexact.symm

/-- The budget saturates along the calls exactly when none of their additions overflows. -/
theorem saturates_iff (h : initialBudget ≤ maxBudget) (calls : List BudgetCall) :
    Saturates initialBudget maxBudget calls ↔
      ∀ l credit, l ++ [BudgetCall.topUp credit] <+: calls →
        (after initialBudget maxBudget l).budget.counter + credit.toNat < counterSpace := by
  constructor
  · intro hsat l credit hl
    have htopUp := hsat.topUp l credit hl
    rw [after_append] at htopUp
    exact ((kept_after h l).topUp_iff credit).1 htopUp
  · intro hfits
    refine ⟨?_, ?_, ?_⟩
    · intro l _
      exact (kept_after h l).maxBudget ▸ (kept_after h l).counter_le
    · intro l _
      exact (Nat.le_add_left _ _).trans (kept_after h l).conserved
    · intro l credit hl
      rw [after_append]
      exact ((kept_after h l).topUp_iff credit).2 (hfits l credit hl)

/-- A budget of 100 with the maximum 150 that is filled and emptied. -/
theorem saturates_of_small :
    (after 100 150 [.topUp 100, .credit 200]).credited = 150 ∧
      Saturates 100 150 [.topUp 100, .credit 200] := by
  refine ⟨by decide, (saturates_iff (by decide) _).2 ?_⟩
  intro l credit hl
  match l with
  | [] =>
      obtain ⟨⟨⟩, -⟩ := List.cons_prefix_cons.1 hl
      decide
  | [_] =>
      obtain ⟨-, hl⟩ := List.cons_prefix_cons.1 hl
      obtain ⟨⟨⟩, -⟩ := List.cons_prefix_cons.1 hl
  | _ :: _ :: l =>
      have hlength := hl.length_le
      simp at hlength

/-- A budget of 100 without a maximum, to which the largest amount is added, is left with 99. -/
theorem counter_wraps :
    (after 100 SharedBudget.maxCounter []).budget.counter = 100 ∧
      (after 100 SharedBudget.maxCounter [.topUp 18446744073709551615]).budget.counter = 99 ∧
      ¬Saturates 100 SharedBudget.maxCounter [.topUp 18446744073709551615] := by
  have hwraps :
      (after 100 SharedBudget.maxCounter [.topUp 18446744073709551615]).budget.counter = 99 := rfl
  refine ⟨rfl, hwraps, ?_⟩
  intro hsat
  have hle := (hsat.topUp [] 18446744073709551615 (List.prefix_refl _)).1
  rw [List.nil_append, hwraps] at hle
  exact absurd hle (by decide)

end BudgetRun

end BroadcastService.Transport

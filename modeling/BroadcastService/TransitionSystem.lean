import Mathlib.Data.Option.Basic
import Mathlib.Tactic.Common

/-!
# Executable labelled transition systems

A system is a partial step function on states and labels. `ReachableIn step ok s₀ s` says that
`s` is reached from `s₀` by steps that all meet `ok`, a condition on the state before the step and
on its label; `run` executes a list of labels. An invariant is proved one step at a time and carried
to whole runs by the rule at the end.
-/

namespace TransitionSystem

variable {σ α τ β : Type*}

/-- The states reached from `s₀` by steps whose label and source state satisfy `ok`. -/
inductive ReachableIn (step : σ → α → Option σ) (ok : σ → α → Prop) (s₀ : σ) : σ → Prop
  | refl : ReachableIn step ok s₀ s₀
  | tail {s s' : σ} {a : α} : ReachableIn step ok s₀ s → ok s a → step s a = some s' →
      ReachableIn step ok s₀ s'

/-- Reachability by arbitrary steps. -/
abbrev Reachable (step : σ → α → Option σ) (s₀ s : σ) : Prop :=
  ReachableIn step (fun _ _ => True) s₀ s

def run (step : σ → α → Option σ) : σ → List α → Option σ
  | s, [] => some s
  | s, a :: as => (step s a).bind fun s' => run step s' as

variable {step : σ → α → Option σ} {ok : σ → α → Prop} {s₀ s s' : σ}

theorem run_append (as bs : List α) :
    run step s (as ++ bs) = (run step s as).bind fun t => run step t bs := by
  induction as generalizing s with
  | nil => rfl
  | cons a as ih => simp only [List.cons_append, run, Option.bind_assoc, ih]

theorem ReachableIn.mono {ok' : σ → α → Prop} (h : ReachableIn step ok s₀ s)
    (hok : ∀ s a, ok s a → ok' s a) : ReachableIn step ok' s₀ s := by
  induction h with
  | refl => exact .refl
  | tail _ ha hs ih => exact .tail ih (hok _ _ ha) hs

theorem ReachableIn.reachable (h : ReachableIn step ok s₀ s) : Reachable step s₀ s :=
  h.mono fun _ _ _ => trivial

theorem ReachableIn.trans {s'' : σ} (h : ReachableIn step ok s s')
    (h' : ReachableIn step ok s' s'') : ReachableIn step ok s s'' := by
  induction h' with
  | refl => exact h
  | tail _ ha hs ih => exact .tail ih ha hs

theorem ReachableIn.run {as : List α} (h : ReachableIn step ok s₀ s) (hok : ∀ s, ∀ a ∈ as, ok s a)
    (hr : run step s as = some s') : ReachableIn step ok s₀ s' := by
  induction as generalizing s with
  | nil => exact Option.some.inj hr ▸ h
  | cons a as ih =>
      obtain ⟨t, ht, hr⟩ := Option.bind_eq_some_iff.1 hr
      exact ih (.tail h (hok s a (by simp)) ht) (fun s b hb => hok s b (by simp [hb])) hr

def runIn (step : σ → α → Option σ) (check : σ → α → Bool) : σ → List α → Option σ
  | s, [] => some s
  | s, a :: as => if check s a then (step s a).bind fun s' => runIn step check s' as else none

theorem ReachableIn.runIn {check : σ → α → Bool} {as : List α} (h : ReachableIn step ok s₀ s)
    (hcheck : ∀ s a, check s a = true → ok s a)
    (hr : TransitionSystem.runIn step check s as = some s') : ReachableIn step ok s₀ s' := by
  induction as generalizing s with
  | nil => exact Option.some.inj hr ▸ h
  | cons a as ih =>
      rw [TransitionSystem.runIn] at hr
      split_ifs at hr with ha
      obtain ⟨t, ht, hr⟩ := Option.bind_eq_some_iff.1 hr
      exact ih (.tail h (hcheck s a ha) ht) hr

theorem run_of_runIn {check : σ → α → Bool} {as : List α}
    (hr : TransitionSystem.runIn step check s as = some s') :
    TransitionSystem.run step s as = some s' := by
  induction as generalizing s with
  | nil => exact hr
  | cons b as ih =>
      rw [TransitionSystem.runIn] at hr
      split_ifs at hr with hb
      obtain ⟨s₁, hs₁, hrest⟩ := Option.bind_eq_some_iff.1 hr
      rw [TransitionSystem.run, hs₁, Option.bind_some]
      exact ih hrest

theorem ok_of_runIn [∀ s a, Decidable (ok s a)] {as : List α}
    (hr : TransitionSystem.runIn step (fun s a => decide (ok s a)) s as = some s') (l : List α)
    (a : α) (t : σ) (hl : l ++ [a] <+: as) (ht : TransitionSystem.run step s l = some t) :
    ok t a := by
  induction as generalizing s l with
  | nil => simp at hl
  | cons b as ih =>
      rw [TransitionSystem.runIn] at hr
      split_ifs at hr with hb
      obtain ⟨s₁, hs₁, hrest⟩ := Option.bind_eq_some_iff.1 hr
      cases l with
      | nil =>
          obtain ⟨rfl, -⟩ := List.cons_prefix_cons.1 hl
          exact Option.some.inj ht ▸ of_decide_eq_true hb
      | cons c l =>
          obtain ⟨rfl, hl'⟩ := List.cons_prefix_cons.1 hl
          rw [TransitionSystem.run, hs₁, Option.bind_some] at ht
          exact ih hrest l hl' ht

theorem reachable_of_run {as : List α} (hr : TransitionSystem.run step s₀ as = some s) :
    Reachable step s₀ s :=
  ReachableIn.run .refl (fun _ _ _ => trivial) hr

theorem exists_reachable {P : σ → Prop} [DecidablePred P] (l : List α)
    (h : (TransitionSystem.run step s₀ l).any (fun s => decide (P s)) = true) :
    ∃ s, Reachable step s₀ s ∧ P s := by
  obtain ⟨s, hr, hs⟩ := (Option.any_eq_true _ _).1 h
  exact ⟨s, reachable_of_run hr, of_decide_eq_true hs⟩

theorem exists_reachableIn {P : σ → Prop} [DecidablePred P] [∀ s a, Decidable (ok s a)]
    (l : List α) (h : (TransitionSystem.runIn step (fun s a => decide (ok s a)) s₀ l).any
      (fun s => decide (P s)) = true) : ∃ s, ReachableIn step ok s₀ s ∧ P s := by
  obtain ⟨s, hr, hs⟩ := (Option.any_eq_true _ _).1 h
  exact ⟨s, ReachableIn.refl.runIn (fun _ _ h => of_decide_eq_true h) hr, of_decide_eq_true hs⟩

/-- A property that holds initially and is kept by every admissible step from a reachable state
holds in every reachable state. -/
theorem ReachableIn.invariant {I : σ → Prop} (h : ReachableIn step ok s₀ s) (h₀ : I s₀)
    (hstep : ∀ s a s', ReachableIn step ok s₀ s → I s → ok s a → step s a = some s' → I s') :
    I s := by
  induction h with
  | refl => exact h₀
  | tail hr ha hs ih => exact hstep _ _ _ hr ih ha hs

/-- A property that a step keeps exactly when the step meets `ok` holds all along a run exactly when
all of its steps do. -/
theorem forall_prefix_iff {P I : σ → Prop} {as : List α} (hI : I s) (hP : P s)
    (hstep : ∀ s a s', I s → P s → step s a = some s' → I s' ∧ (P s' ↔ ok s a))
    (hr : TransitionSystem.run step s as = some s') :
    (∀ l t, l <+: as → TransitionSystem.run step s l = some t → P t) ↔
      ∀ l a t, l ++ [a] <+: as → TransitionSystem.run step s l = some t → ok t a := by
  induction as generalizing s with
  | nil =>
      refine iff_of_true ?_ ?_
      · rintro l t hl ht
        cases List.prefix_nil.1 hl
        exact Option.some.inj ht ▸ hP
      · rintro l a t hl -
        simp at hl
  | cons b as ih =>
      obtain ⟨s₁, hs₁, hrest⟩ := Option.bind_eq_some_iff.1 hr
      obtain ⟨hI₁, hP₁⟩ := hstep s b s₁ hI hP hs₁
      have hcons : ∀ l, TransitionSystem.run step s (b :: l) = TransitionSystem.run step s₁ l := by
        intro l
        rw [TransitionSystem.run, hs₁, Option.bind_some]
      constructor
      · intro h l a t hl ht
        have h₁ : P s₁ := h [b] s₁ (by simp) (by rw [hcons]; rfl)
        cases l with
        | nil =>
            obtain ⟨rfl, -⟩ := List.cons_prefix_cons.1 hl
            exact Option.some.inj ht ▸ hP₁.1 h₁
        | cons c l =>
            obtain ⟨rfl, hl'⟩ := List.cons_prefix_cons.1 hl
            refine (ih hI₁ h₁ hrest).1 ?_ l a t hl' (hcons l ▸ ht)
            intro l t hl ht
            exact h (c :: l) t (List.cons_prefix_cons.2 ⟨rfl, hl⟩) ((hcons l).trans ht)
      · intro h l t hl ht
        have h₁ : P s₁ := hP₁.2 (h [] b s (by simp) rfl)
        cases l with
        | nil => exact Option.some.inj ht ▸ hP
        | cons c l =>
            obtain ⟨rfl, hl'⟩ := List.cons_prefix_cons.1 hl
            refine (ih hI₁ h₁ hrest).2 ?_ l t hl' (hcons l ▸ ht)
            intro l a t hl ht
            exact h (c :: l) a t (List.cons_prefix_cons.2 ⟨rfl, hl⟩) ((hcons l).trans ht)

end TransitionSystem

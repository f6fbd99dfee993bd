import Mathlib.Data.List.Basic
import Mathlib.Tactic.Common

/-!
# Readers of self-delimiting input

A reader takes a value off the front of a list and fails if the list ends too early. How many
elements it takes may depend on the elements themselves, on a count in a header for example.
`Reads` says which inputs are long enough; it is proved for a sequence of readers from its parts.
-/

namespace SizedReader

variable {σ α β : Type*}

/-- The reader succeeds on the inputs that hold `size` elements, and leaves what is behind them. -/
def Reads (read : List σ → Option (α × List σ)) (size : List σ → ℕ) (value : List σ → α) : Prop :=
  ∀ input, read input =
    if size input ≤ input.length then some (value input, input.drop (size input)) else none

theorem Reads.pure (a : α) :
    Reads (fun input : List σ => some (a, input)) (fun _ => 0) fun _ => a := by
  intro input
  rw [if_pos (Nat.zero_le _), List.drop_zero]

/-- The second reader starts where the first one has stopped, and may depend on its value. -/
theorem Reads.bind {read : List σ → Option (α × List σ)} {size : List σ → ℕ} {value : List σ → α}
    {next : α → List σ → Option (β × List σ)} {nextSize : α → List σ → ℕ}
    {nextValue : α → List σ → β} (h : Reads read size value)
    (hnext : ∀ a, Reads (next a) (nextSize a) (nextValue a)) :
    Reads (fun input => (read input).bind fun (a, rest) => next a rest)
      (fun input => size input + nextSize (value input) (input.drop (size input)))
      (fun input => nextValue (value input) (input.drop (size input))) := by
  intro input
  dsimp only
  rw [h input]
  by_cases hsize : size input ≤ input.length
  · rw [if_pos hsize, Option.bind_some]
    simp only [hnext (value input) (input.drop (size input)), List.length_drop, List.drop_drop]
    by_cases hrest : nextSize (value input) (input.drop (size input)) ≤ input.length - size input
    · rw [if_pos hrest, if_pos (by omega)]
    · rw [if_neg hrest, if_neg (by omega)]
  · rw [if_neg hsize, Option.bind_none, if_neg (by omega)]

theorem Reads.map {read : List σ → Option (α × List σ)} {size : List σ → ℕ} {value : List σ → α}
    (h : Reads read size value) (f : α → β) :
    Reads (fun input => (read input).map fun (a, rest) => (f a, rest)) size
      fun input => f (value input) := by
  intro input
  dsimp only
  rw [h input]
  split_ifs <;> rfl

theorem Reads.ite {read read' : List σ → Option (α × List σ)} {size size' : List σ → ℕ}
    {value value' : List σ → α} (c : Prop) [Decidable c] (h : Reads read size value)
    (h' : Reads read' size' value') :
    Reads (fun input => if c then read input else read' input)
      (fun input => if c then size input else size' input)
      (fun input => if c then value input else value' input) := by
  intro input
  by_cases hc : c
  · simp only [if_pos hc]
    exact h input
  · simp only [if_neg hc]
    exact h' input

theorem Reads.of_eq {read read' : List σ → Option (α × List σ)} {size size' : List σ → ℕ}
    {value : List σ → α} (h : Reads read size value) (hread : ∀ input, read' input = read input)
    (hsize : ∀ input, size' input = size input) : Reads read' size' value := by
  intro input
  rw [hread input, hsize input]
  exact h input

/-- Whatever uses the value and the rest of the input does so on inputs that are long enough. -/
theorem Reads.bind_isSome_iff {read : List σ → Option (α × List σ)} {size : List σ → ℕ}
    {value : List σ → α} (h : Reads read size value) (use : α × List σ → Option β)
    (input : List σ) :
    ((read input).bind use).isSome ↔
      size input ≤ input.length ∧ (use (value input, input.drop (size input))).isSome := by
  rw [h input]
  split_ifs with hsize
  · simp [hsize]
  · simp [hsize]

/-- The size of `count` entries, each of which starts where the one before it ends. -/
def sizeEach (size : List σ → ℕ) : ℕ → List σ → ℕ
  | 0, _ => 0
  | count + 1, input => size input + sizeEach size count (input.drop (size input))

def valueEach (size : List σ → ℕ) (value : α → List σ → β) : List α → List σ → List β
  | [], _ => []
  | object :: objects, input =>
      value object input :: valueEach size value objects (input.drop (size input))

end SizedReader

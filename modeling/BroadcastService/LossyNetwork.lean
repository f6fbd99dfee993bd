import BroadcastService.MessagePassing

/-!
# Programs over a lossy network

The network may lose, duplicate and reorder datagrams but does not forge them: an event that reads a
datagram can happen whenever the datagram was written before, any number of times or never. Nothing
needs to be kept in flight, and a process that crashes is one that takes no further steps, so the
state of a run is a `History`, with the datagrams read so far as the handled packets.
-/

namespace MessagePassing
open TransitionSystem

/-- The code of the processes. `read` gives the sender and the datagram that an event takes from the
network, `written` the destinations and datagrams that an output puts on it. -/
structure DatagramProgram (P σ δ ε ω : Type*) where
  start : P → σ
  onEvent : P → σ → ε → Option (σ × List ω)
  read : P → ε → Option (P × δ)
  written : P → ω → List (P × δ)

namespace DatagramProgram

variable {P σ δ ε ω : Type*} [DecidableEq P] [DecidableEq δ] (A : DatagramProgram P σ δ ε ω)

def initial : History P σ δ ω where
  node := A.start
  trace _ := []
  handled := []

def step (h : History P σ δ ω) : P × ε → Option (History P σ δ ω)
  | (p, e) => match A.read p e with
      | none => (A.onEvent p (h.node p) e).map (h.act p)
      | some (q, d) =>
          if (p, d) ∈ (h.trace q).flatMap (A.written q) then
            (A.onEvent p (h.node p) e).map ((h.receive ⟨q, p, d⟩).act p)
          else none

abbrev Reachable (h : History P σ δ ω) : Prop := TransitionSystem.Reachable A.step A.initial h

variable {A} {h : History P σ δ ω}

/-- A property that every event keeps, with what it reads written before, holds in every reachable
state. -/
theorem invariant {I : History P σ δ ω → Prop} (hr : A.Reachable h) (h₀ : I A.initial)
    (hevent : ∀ h p e r, A.Reachable h → I h → A.read p e = none →
      A.onEvent p (h.node p) e = some r → I (h.act p r))
    (hread : ∀ h p e q d r, A.Reachable h → I h → A.read p e = some (q, d) →
      (∃ o ∈ h.trace q, (p, d) ∈ A.written q o) → A.onEvent p (h.node p) e = some r →
      I ((h.receive ⟨q, p, d⟩).act p r)) : I h := by
  apply hr.invariant h₀
  rintro h ⟨p, e⟩ h' hr hI _ hs
  cases hx : A.read p e with
  | none =>
      simp only [step, hx] at hs
      obtain ⟨r, hr', rfl⟩ := Option.map_eq_some_iff.1 hs
      exact hevent h p e r hr hI hx hr'
  | some qd =>
      obtain ⟨q, d⟩ := qd
      simp only [step, hx] at hs
      split_ifs at hs with hwritten
      obtain ⟨r, hr', rfl⟩ := Option.map_eq_some_iff.1 hs
      exact hread h p e q d r hr hI hx (List.mem_flatMap.1 hwritten) hr'

theorem step_cases {h' : History P σ δ ω} {p : P} {e : ε} (hs : A.step h (p, e) = some h') :
    ∃ r, A.onEvent p (h.node p) e = some r ∧
      (∀ q d, A.read p e = some (q, d) → ∃ o ∈ h.trace q, (p, d) ∈ A.written q o) ∧
      h'.node = (h.act p r).node ∧ h'.trace = (h.act p r).trace := by
  cases hx : A.read p e with
  | none =>
      simp only [step, hx] at hs
      obtain ⟨r, hr, rfl⟩ := Option.map_eq_some_iff.1 hs
      exact ⟨r, hr, by simp, rfl, rfl⟩
  | some qd =>
      obtain ⟨q, d⟩ := qd
      simp only [step, hx] at hs
      split_ifs at hs with hwritten
      obtain ⟨r, hr, rfl⟩ := Option.map_eq_some_iff.1 hs
      refine ⟨r, hr, ?_, rfl, rfl⟩
      rintro q' d' he
      obtain ⟨rfl, rfl⟩ := Prod.mk.inj (Option.some.inj he)
      exact List.mem_flatMap.1 hwritten

theorem exists_step {p : P} {e : ε} {r : σ × List ω} (hr : A.onEvent p (h.node p) e = some r)
    (hread : ∀ q d, A.read p e = some (q, d) → ∃ o ∈ h.trace q, (p, d) ∈ A.written q o) :
    ∃ h', A.step h (p, e) = some h' ∧ h'.node = (h.act p r).node ∧
      h'.trace = (h.act p r).trace := by
  cases hx : A.read p e with
  | none => exact ⟨h.act p r, by simp [step, hx, hr], rfl, rfl⟩
  | some qd =>
      obtain ⟨q, d⟩ := qd
      have hwritten := List.mem_flatMap.2 (hread q d hx)
      exact ⟨(h.receive ⟨q, p, d⟩).act p r, by simp [step, hx, hr, hwritten], rfl, rfl⟩

end DatagramProgram

end MessagePassing

import BroadcastService.MessagePassing

/-!
# Projections between message-passing programs

A projection forgets part of every local state, drops some outputs and drops or shortens messages.
If every reaction of the concrete program projects to at most one reaction of the abstract program
followed by abstract inputs at the same process, then every reachable concrete world projects to a
reachable abstract world (`project_reachable`).
-/

namespace MessagePassing
open TransitionSystem

namespace Program

variable {P σ μ ι ω : Type*} [DecidableEq P] (B : Program P σ μ ι ω)

def inputs (p : P) : σ × List ω → List ι → Option (σ × List ω)
  | r, [] => some r
  | r, y :: ys =>
      if B.enabled p r.1 r.2 y = true then
        (B.onInput p r.1 y).bind fun t => inputs p (t.1, r.2 ++ t.2) ys
      else none

theorem act_act (w : World P σ μ ω) (p : P) (r t : σ × List ω) :
    B.act (B.act w p r) p t = B.act w p (t.1, r.2 ++ t.2) := by
  simp [act, History.act, List.append_assoc]

theorem act_id (w : World P σ μ ω) (p : P) : B.act w p (w.node p, []) = w := by
  simp [act, History.act]

theorem run_inputs {w : World P σ μ ω} {p : P} (hp : w.crashed p = false) {ys : List ι}
    {t : σ × List ω} (h : B.inputs p (w.node p, w.trace p) ys = some t) :
    ∃ outs, t.2 = w.trace p ++ outs ∧
      run B.step w (ys.map (Label.input p)) = some (B.act w p (t.1, outs)) := by
  induction ys generalizing w with
  | nil =>
      obtain rfl := Option.some.inj h
      exact ⟨[], by simp, by simp [run, act_id]⟩
  | cons y ys ih =>
      simp only [inputs] at h
      split_ifs at h with he
      obtain ⟨r, hr, h⟩ := Option.bind_eq_some_iff.1 h
      have hstep : B.step w (.input p y) = some (B.act w p r) := by
        simp [step, hp, he, hr]
      obtain ⟨outs, ht, hrun⟩ := ih (w := B.act w p r) hp (by simpa [act] using h)
      refine ⟨r.2 ++ outs, by simpa [act] using ht, ?_⟩
      rw [List.map_cons, run, hstep, Option.bind_some, hrun, act_act]

end Program

variable {P σ μ ι ω σ' μ' ι' ω' : Type*} [DecidableEq P]

/-- The three maps of a projection. -/
structure Projection (P σ μ ω σ' μ' ω' : Type*) where
  node : P → σ → σ'
  body : μ → Option μ'
  out : ω → Option ω'

namespace Projection

variable (F : Projection P σ μ ω σ' μ' ω')

def packet (m : Packet P μ) : Option (Packet P μ') :=
  (F.body m.body).map fun b => ⟨m.src, m.dst, b⟩

def world (w : World P σ μ ω) : World P σ' μ' ω' where
  node p := F.node p (w.node p)
  trace p := (w.trace p).filterMap F.out
  handled := w.handled.filterMap F.packet
  inflight := w.inflight.filterMap F.packet
  lost := w.lost.filterMap F.packet
  crashed := w.crashed

/-- The messages of an output project to the messages of the projected output. -/
def EmitCompatible (A : Program P σ μ ι ω) (B : Program P σ' μ' ι' ω') : Prop :=
  ∀ p o, (A.emit p o).filterMap (fun d => (F.body d.2).map fun b => (d.1, b)) =
    (F.out o).elim [] (B.emit p)

omit [DecidableEq P] in
theorem filterMap_packets {A : Program P σ μ ι ω} {B : Program P σ' μ' ι' ω'}
    (hF : F.EmitCompatible A B) (p : P) (outs : List ω) :
    (A.packets p outs).filterMap F.packet = B.packets p (outs.filterMap F.out) := by
  induction outs with
  | nil => rfl
  | cons o outs ih =>
      have ho : ((A.emit p o).map fun d => (⟨p, d.1, d.2⟩ : Packet P μ)).filterMap F.packet =
          ((F.out o).elim [] (B.emit p)).map fun d => ⟨p, d.1, d.2⟩ := by
        rw [← hF p o, List.filterMap_map, List.map_filterMap]
        refine List.filterMap_congr fun d _ => ?_
        simp [packet, Function.comp_def]
      have hcons : A.packets p (o :: outs) =
          ((A.emit p o).map fun d => (⟨p, d.1, d.2⟩ : Packet P μ)) ++ A.packets p outs := rfl
      rw [hcons, List.filterMap_append, ih, ho, List.filterMap_cons]
      cases F.out o <;> simp [Program.packets]

theorem world_act {A : Program P σ μ ι ω} {B : Program P σ' μ' ι' ω'}
    (hF : F.EmitCompatible A B) (w : World P σ μ ω) (p : P) (r : σ × List ω) :
    F.world (A.act w p r) = B.act (F.world w) p (F.node p r.1, r.2.filterMap F.out) := by
  simp only [world, Program.act, History.act, List.filterMap_append, F.filterMap_packets hF,
    World.mk.injEq, History.mk.injEq, and_true]
  constructor
  · funext q
    by_cases hq : q = p
    · subst hq; simp
    · simp [Function.update_of_ne hq]
  · funext q
    by_cases hq : q = p
    · subst hq; simp
    · simp [Function.update_of_ne hq]

omit [DecidableEq P] in
/-- Taking out an element that the projection drops is invisible; taking out one that it keeps
takes out its image. -/
theorem filterMap_eraseIdx {α β : Type*} (f : α → Option β) {l : List α} {i : ℕ} {a : α}
    (h : l[i]? = some a) :
    match f a with
    | none => (l.eraseIdx i).filterMap f = l.filterMap f
    | some b => ∃ j, (l.filterMap f)[j]? = some b ∧
        (l.eraseIdx i).filterMap f = (l.filterMap f).eraseIdx j := by
  induction l generalizing i with
  | nil => simp at h
  | cons x l ih =>
      cases i with
      | zero =>
          obtain rfl : x = a := by simpa using h
          cases hx : f x with
          | none => simp [hx]
          | some b => exact ⟨0, by simp [hx], by simp [hx]⟩
      | succ i =>
          have hl := ih (i := i) (by simpa using h)
          cases hx : f x <;> cases ha : f a <;> simp only [ha] at hl ⊢
          · simpa [hx] using hl
          · obtain ⟨j, hj, he⟩ := hl
            exact ⟨j, by simpa [hx] using hj, by simpa [hx] using he⟩
          · simpa [hx] using hl
          · obtain ⟨j, hj, he⟩ := hl
            exact ⟨j + 1, by simpa [hx] using hj, by simpa [hx] using he⟩

variable {F} {A : Program P σ μ ι ω} {B : Program P σ' μ' ι' ω'} {w : World P σ μ ω}

omit [DecidableEq P] in
theorem world_initial (hstart : ∀ p, F.node p (A.start p) = B.start p) :
    F.world A.initial = B.initial := by
  simp [world, Program.initial, hstart]

section Matching

variable (hemit : F.EmitCompatible A B)

include hemit

theorem run_of_input {p : P} {r : σ × List ω} {ys : List ι'} (hc : w.crashed p = false)
    (hys : B.inputs p ((F.world w).node p, (F.world w).trace p) ys =
      some (F.node p r.1, (F.world w).trace p ++ r.2.filterMap F.out)) :
    run B.step (F.world w) (ys.map (Label.input p)) = some (F.world (A.act w p r)) := by
  obtain ⟨outs, ht, hrun⟩ := B.run_inputs (w := F.world w) hc hys
  rw [← List.append_cancel_left ht] at hrun
  rw [hrun, F.world_act hemit]

/-- The packet that is handled is dropped by the projection or handled by the abstract program, and
abstract inputs follow. -/
theorem run_of_handle {i : ℕ} {m : Packet P μ} {r : σ × List ω} (hm : w.inflight[i]? = some m)
    (hc : w.crashed m.dst = false) {t : σ' × List ω'} {ys : List ι'}
    (ht : (F.body m.body).elim (some ((F.world w).node m.dst, []))
      (B.onMessage m.dst ((F.world w).node m.dst) m.src) = some t)
    (hys : B.inputs m.dst (t.1, (F.world w).trace m.dst ++ t.2) ys =
      some (F.node m.dst r.1, (F.world w).trace m.dst ++ r.2.filterMap F.out)) :
    ∃ as, run B.step (F.world w) as = some (F.world
      (A.act { w with toHistory := w.receive m, inflight := w.inflight.eraseIdx i } m.dst r)) := by
  let v : World P σ μ ω := { w with toHistory := w.receive m, inflight := w.inflight.eraseIdx i }
  have herase := filterMap_eraseIdx F.packet hm
  have hfirst : ∃ as, run B.step (F.world w) as = some (B.act (F.world v) m.dst t) := by
    cases hb : F.body m.body with
    | none =>
        have hp : F.packet m = none := by simp [packet, hb]
        have hv : F.world v = F.world w := by
          simp only [hp] at herase
          simp [v, world, herase, History.receive, hp]
        rw [hb, Option.elim_none] at ht
        obtain rfl := Option.some.inj ht
        exact ⟨[], by rw [hv]; exact congrArg some (B.act_id (F.world w) m.dst).symm⟩
    | some b =>
        have hp : F.packet m = some ⟨m.src, m.dst, b⟩ := by simp [packet, hb]
        simp only [hp] at herase
        obtain ⟨j, hj, hej⟩ := herase
        rw [hb, Option.elim_some] at ht
        refine ⟨[.handle j], ?_⟩
        have hj' : (F.world w).inflight[j]? = some ⟨m.src, m.dst, b⟩ := hj
        have hcr : (F.world w).crashed m.dst = false := hc
        simp only [run, Program.step, hj', hcr, ht, Option.bind_some, if_true, Option.map_some]
        simp [v, world, hej, History.receive, hp]
  obtain ⟨as, has⟩ := hfirst
  have hcd : (B.act (F.world v) m.dst t).crashed m.dst = false := hc
  have hys' : B.inputs m.dst ((B.act (F.world v) m.dst t).node m.dst,
      (B.act (F.world v) m.dst t).trace m.dst) ys =
      some (F.node m.dst r.1, (F.world w).trace m.dst ++ r.2.filterMap F.out) := by
    rw [← hys]
    simp [Program.act, v, world]
  obtain ⟨outs, hto, hrun⟩ := B.run_inputs hcd hys'
  have htr : (B.act (F.world v) m.dst t).trace m.dst = (F.world w).trace m.dst ++ t.2 := by
    simp [Program.act, v, world]
  have houts : r.2.filterMap F.out = t.2 ++ outs := by
    rw [htr, List.append_assoc] at hto
    exact List.append_cancel_left hto
  refine ⟨as ++ ys.map (Label.input m.dst), ?_⟩
  rw [run_append, has, Option.bind_some, hrun, Program.act_act, F.world_act hemit, houts]

end Matching

theorem run_of_lose {i : ℕ} {m : Packet P μ} (hm : w.inflight[i]? = some m)
    (hc : w.crashed m.src = true) :
    ∃ as, run B.step (F.world w) as =
      some (F.world { w with inflight := w.inflight.eraseIdx i, lost := w.lost ++ [m] }) := by
  have herase := filterMap_eraseIdx F.packet hm
  cases hp : F.packet m with
  | none =>
      simp only [hp] at herase
      exact ⟨[], by simp [run, world, herase, hp]⟩
  | some m' =>
      simp only [hp] at herase
      obtain ⟨j, hj, hej⟩ := herase
      have hsrc : m'.src = m.src := by
        obtain ⟨b, _, rfl⟩ := Option.map_eq_some_iff.1 hp
        rfl
      have hj' : (F.world w).inflight[j]? = some m' := hj
      have hcr : (F.world w).crashed m'.src = true := by rw [hsrc]; exact hc
      refine ⟨[.lose j], ?_⟩
      simp only [run, Program.step, hj', hcr, Option.bind_some, if_true]
      simp [world, hej, hp]

/-- Reachable worlds project to reachable worlds when every reaction projects to a reaction followed
by inputs at the same process. The reactions may rely on a local invariant `J` that they keep, and
on what holds in reachable worlds of the abstract program. -/
theorem project_reachable {J : P → σ → List ω → Prop} (hw : A.Reachable w)
    (hstart : ∀ p, F.node p (A.start p) = B.start p) (hemit : F.EmitCompatible A B)
    (hJ : ∀ p, J p (A.start p) [])
    (hin : ∀ (w : World P σ μ ω) p x r, A.Reachable w → B.Reachable (F.world w) →
      J p (w.node p) (w.trace p) → A.enabled p (w.node p) (w.trace p) x = true →
      A.onInput p (w.node p) x = some r → J p r.1 (w.trace p ++ r.2) ∧
      ∃ ys, B.inputs p ((F.world w).node p, (F.world w).trace p) ys =
        some (F.node p r.1, (F.world w).trace p ++ r.2.filterMap F.out))
    (hmsg : ∀ (w : World P σ μ ω) m r, A.Reachable w → B.Reachable (F.world w) →
      J m.dst (w.node m.dst) (w.trace m.dst) → m ∈ w.inflight →
      A.onMessage m.dst (w.node m.dst) m.src m.body = some r →
      J m.dst r.1 (w.trace m.dst ++ r.2) ∧
      ∃ t ys, (F.body m.body).elim (some ((F.world w).node m.dst, []))
          (B.onMessage m.dst ((F.world w).node m.dst) m.src) = some t ∧
        B.inputs m.dst (t.1, (F.world w).trace m.dst ++ t.2) ys =
          some (F.node m.dst r.1, (F.world w).trace m.dst ++ r.2.filterMap F.out)) :
    B.Reachable (F.world w) ∧ ∀ p, J p (w.node p) (w.trace p) := by
  apply hw.invariant (I := fun w => B.Reachable (F.world w) ∧ ∀ p, J p (w.node p) (w.trace p))
  · refine ⟨?_, hJ⟩
    rw [world_initial hstart]
    exact .refl
  · rintro w l w' hr ⟨hB, hall⟩ _ hs
    have hrun : ∀ {as v}, run B.step (F.world w) as = some v → B.Reachable v :=
      fun h => hB.run (fun _ _ _ => trivial) h
    rcases Program.step_cases hs with ⟨p, x, r, _, hc, he, hx, rfl⟩ |
      ⟨i, m, r, _, hm, hc, hx, rfl⟩ | ⟨p, _, rfl⟩ | ⟨i, m, _, hm, hc, rfl⟩
    · obtain ⟨hJp, ys, hys⟩ := hin w p x r hr hB (hall p) he hx
      exact ⟨hrun (run_of_input hemit hc hys), History.forall_act _ _ _ hall hJp⟩
    · obtain ⟨hJm, t, ys, ht, hys⟩ := hmsg w m r hr hB (hall m.dst) (List.mem_of_getElem? hm) hx
      obtain ⟨as, has⟩ := run_of_handle hemit hm hc ht hys
      exact ⟨hrun has, History.forall_act _ _ _ hall hJm⟩
    · have hcrash : run B.step (F.world w) [.crash p] =
          some (F.world { w with crashed := Function.update w.crashed p true }) := rfl
      exact ⟨hrun hcrash, hall⟩
    · obtain ⟨as, has⟩ := run_of_lose (F := F) (B := B) hm hc
      exact ⟨hrun has, hall⟩

end Projection
end MessagePassing

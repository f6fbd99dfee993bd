import BroadcastService.MessagePassing

/-!
# Simulation of programs with encoded messages

A program over encoded messages simulates one over messages if its reactions are matched by
reactions of the other one, with the same packets up to the encoding (`exists_related`). The
relation between the processes may use the outputs so far, and what is known about a message in
flight is known of every reachable world of the second program.

`A.encoded encode decode` is the program `A` with every message encoded where it is sent and decoded
where it is handled; a message that cannot be decoded is not handled. If decoding recovers every
message in flight, the worlds it reaches are those of `A` with the packets encoded
(`reachable_of_encoded`).
-/

namespace MessagePassing
open TransitionSystem

variable {P σ σ' μ ι ι' ω ω' β : Type*}

def Packet.encoded (encode : μ → β) (m : Packet P μ) : Packet P β := ⟨m.src, m.dst, encode m.body⟩

/-- The same packets, encoded, the same crashes, and related processes. -/
structure Related (encode : μ → β) (R : P → σ → List ω → σ' → List ω' → Prop)
    (w : World P σ β ω) (v : World P σ' μ ω') : Prop where
  node : ∀ p, R p (w.node p) (w.trace p) (v.node p) (v.trace p)
  handled : w.handled = v.handled.map (Packet.encoded encode)
  inflight : w.inflight = v.inflight.map (Packet.encoded encode)
  lost : w.lost = v.lost.map (Packet.encoded encode)
  crashed : w.crashed = v.crashed

section Simulation

variable {C : Program P σ β ι ω} {A : Program P σ' μ ι' ω'} {encode : μ → β}
  {R : P → σ → List ω → σ' → List ω' → Prop} {w w' : World P σ β ω} {v : World P σ' μ ω'}

variable (C A encode R) in
/-- The result of a reaction of a process and that of the reaction that matches it. -/
structure Matched (p : P) (t : List ω) (r : σ × List ω) (t' : List ω') (r' : σ' × List ω') :
    Prop where
  node : R p r.1 (t ++ r.2) r'.1 (t' ++ r'.2)
  packets : C.packets p r.2 = (A.packets p r'.2).map (Packet.encoded encode)

variable [DecidableEq P]

theorem Related.act (h : Related encode R w v) {p : P} {r : σ × List ω} {r' : σ' × List ω'}
    (hr : Matched C A encode R p (w.trace p) r (v.trace p) r') :
    Related encode R (C.act w p r) (A.act v p r') := by
  refine ⟨fun q => ?_, h.handled, ?_, h.lost, h.crashed⟩
  · by_cases hq : q = p
    · subst hq
      simpa [Program.act] using hr.node
    · simpa [Program.act, History.act_node_ne _ _ _ _ hq, History.act_trace_ne _ _ _ _ hq] using
        h.node q
  · change w.inflight ++ C.packets p r.2 = List.map _ (v.inflight ++ A.packets p r'.2)
    rw [List.map_append, h.inflight, hr.packets]

omit [DecidableEq P] in
theorem Related.exists_inflight (h : Related encode R w v) {i : ℕ} {m : Packet P β}
    (hm : w.inflight[i]? = some m) :
    ∃ m₀, v.inflight[i]? = some m₀ ∧ m₀.encoded encode = m := by
  rw [h.inflight, List.getElem?_map] at hm
  exact Option.map_eq_some_iff.1 hm

theorem Related.exists_step (h : Related encode R w v)
    (hinput : ∀ p x r, C.enabled p (w.node p) (w.trace p) x = true →
      C.onInput p (w.node p) x = some r → ∃ x' r', A.enabled p (v.node p) (v.trace p) x' = true ∧
        A.onInput p (v.node p) x' = some r' ∧
        Matched C A encode R p (w.trace p) r (v.trace p) r')
    (hmessage : ∀ m ∈ v.inflight, ∀ r,
      C.onMessage m.dst (w.node m.dst) m.src (encode m.body) = some r →
      ∃ r', A.onMessage m.dst (v.node m.dst) m.src m.body = some r' ∧
        Matched C A encode R m.dst (w.trace m.dst) r (v.trace m.dst) r')
    {l : Label P ι} (hs : C.step w l = some w') :
    ∃ l' v', A.step v l' = some v' ∧ Related encode R w' v' := by
  rcases Program.step_cases hs with ⟨p, x, r, rfl, hc, he, hx, rfl⟩ |
    ⟨i, m, r, rfl, hm, hc, hx, rfl⟩ | ⟨p, rfl, rfl⟩ | ⟨i, m, rfl, hm, hc, rfl⟩
  · obtain ⟨x', r', he', hx', hr⟩ := hinput p x r he hx
    rw [h.crashed] at hc
    refine ⟨.input p x', A.act v p r', ?_, h.act hr⟩
    rw [Program.step, if_pos ⟨hc, he'⟩, hx']
    rfl
  · obtain ⟨m₀, hm₀, rfl⟩ := h.exists_inflight hm
    obtain ⟨r', hx', hr⟩ := hmessage m₀ (List.mem_of_getElem? hm₀) r hx
    have hc₀ : v.crashed m₀.dst = false := h.crashed ▸ hc
    refine ⟨.handle i, A.act { v with
      toHistory := v.receive m₀, inflight := v.inflight.eraseIdx i } m₀.dst r', ?_, ?_⟩
    · simp only [Program.step, hm₀, Option.bind_some, hc₀, if_true, hx', Option.map_some]
    · have hrest : Related encode R
          { w with
            toHistory := w.receive (m₀.encoded encode), inflight := w.inflight.eraseIdx i }
          { v with toHistory := v.receive m₀, inflight := v.inflight.eraseIdx i } := by
        refine ⟨h.node, ?_, ?_, h.lost, h.crashed⟩
        · simp [History.receive, h.handled]
        · simp [h.inflight, List.eraseIdx_map]
      exact hrest.act hr
  · refine ⟨.crash p, { v with crashed := Function.update v.crashed p true }, rfl, h.node,
      h.handled, h.inflight, h.lost, ?_⟩
    rw [← h.crashed]
  · obtain ⟨m₀, hm₀, rfl⟩ := h.exists_inflight hm
    have hc₀ : v.crashed m₀.src = true := h.crashed ▸ hc
    refine ⟨.lose i, { v with inflight := v.inflight.eraseIdx i, lost := v.lost ++ [m₀] }, ?_,
      h.node, h.handled, ?_, ?_, h.crashed⟩
    · simp only [Program.step, hm₀, Option.bind_some, hc₀, if_true]
    · simp [h.inflight, List.eraseIdx_map]
    · simp [h.lost]

theorem exists_related (hstart : ∀ p, R p (C.start p) [] (A.start p) [])
    (hinput : ∀ w v, A.Reachable v → Related encode R w v → ∀ p x r,
      C.enabled p (w.node p) (w.trace p) x = true → C.onInput p (w.node p) x = some r →
      ∃ x' r', A.enabled p (v.node p) (v.trace p) x' = true ∧
        A.onInput p (v.node p) x' = some r' ∧
        Matched C A encode R p (w.trace p) r (v.trace p) r')
    (hmessage : ∀ w v, A.Reachable v → Related encode R w v → ∀ m ∈ v.inflight, ∀ r,
      C.onMessage m.dst (w.node m.dst) m.src (encode m.body) = some r →
      ∃ r', A.onMessage m.dst (v.node m.dst) m.src m.body = some r' ∧
        Matched C A encode R m.dst (w.trace m.dst) r (v.trace m.dst) r')
    (hw : C.Reachable w) : ∃ v, A.Reachable v ∧ Related encode R w v := by
  apply hw.invariant (I := fun w => ∃ v, A.Reachable v ∧ Related encode R w v)
  · exact ⟨A.initial, .refl, hstart, rfl, rfl, rfl, rfl⟩
  · rintro w l w' _ ⟨v, hv, h⟩ _ hs
    obtain ⟨l', v', hstep, h'⟩ := h.exists_step (hinput w v hv h) (hmessage w v hv h) hs
    exact ⟨v', hv.tail trivial hstep, h'⟩

end Simulation

def World.encoded (encode : μ → β) (w : World P σ μ ω) : World P σ β ω where
  node := w.node
  trace := w.trace
  handled := w.handled.map (Packet.encoded encode)
  inflight := w.inflight.map (Packet.encoded encode)
  lost := w.lost.map (Packet.encoded encode)
  crashed := w.crashed

namespace Program

def encoded (A : Program P σ μ ι ω) (encode : μ → β) (decode : β → Option μ) :
    Program P σ β ι ω where
  start := A.start
  enabled := A.enabled
  onInput := A.onInput
  onMessage p s src b := (decode b).bind (A.onMessage p s src)
  emit p o := (A.emit p o).map fun d => (d.1, encode d.2)

variable {A : Program P σ μ ι ω} {encode : μ → β} {decode : β → Option μ}

theorem packets_encoded (p : P) (outs : List ω) :
    (A.encoded encode decode).packets p outs = (A.packets p outs).map (Packet.encoded encode) := by
  rw [packets, packets, List.map_flatMap]
  apply List.flatMap_congr
  intro o _
  simp only [encoded, List.map_map]
  rfl

variable [DecidableEq P]

/-- If decoding recovers every message that the program has in flight, the worlds of the encoded
program are its worlds, encoded. -/
theorem reachable_of_encoded {w : World P σ β ω} (hw : (A.encoded encode decode).Reachable w)
    (hgood : ∀ v, A.Reachable v → ∀ m ∈ v.inflight, decode (encode m.body) = some m.body) :
    ∃ v, A.Reachable v ∧ v.encoded encode = w := by
  let R : P → σ → List ω → σ → List ω → Prop := fun _ s t s' t' => s = s' ∧ t = t'
  have hsame : ∀ p t r, Matched (A.encoded encode decode) A encode R p t r t r :=
    fun p t r => ⟨⟨rfl, rfl⟩, packets_encoded p r.2⟩
  obtain ⟨v, hv, h⟩ : ∃ v, A.Reachable v ∧ Related encode R w v := by
    apply exists_related (fun p => ⟨rfl, rfl⟩) _ _ hw
    · intro w v _ h p x r he hx
      obtain ⟨hnode, htrace⟩ := h.node p
      rw [hnode, htrace] at he
      rw [hnode] at hx
      rw [htrace]
      exact ⟨x, r, he, hx, hsame p _ r⟩
    · intro w v hv h m hm r hx
      obtain ⟨hnode, htrace⟩ := h.node m.dst
      rw [htrace]
      refine ⟨r, ?_, hsame m.dst _ r⟩
      simpa [encoded, hgood v hv m hm, hnode] using hx
  refine ⟨v, hv, ?_⟩
  obtain ⟨⟨node, trace, handled⟩, inflight, lost, crashed⟩ := w
  obtain rfl : v.node = node := funext fun p => ((h.node p).1).symm
  obtain rfl : v.trace = trace := funext fun p => ((h.node p).2).symm
  rw [World.encoded, ← h.handled, ← h.inflight, ← h.lost, ← h.crashed]

end Program

end MessagePassing

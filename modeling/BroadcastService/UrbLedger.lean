import BroadcastService.UniformReliableBroadcast

/-!
# What a process remembers of its deliveries

`Ledger urb t` says that the containers `delivered_`, `delivered_prefix_cleaned_` and
`delivered_prefix_to_clean_` together remember exactly the identifiers delivered in the trace `t`.
Garbage collection moves identifiers from the first container to the second without changing what is
remembered, so what the handler does with a message depends on the trace, `pending_` and `acks_`
only (`onMessage_handling`).
-/

namespace BroadcastService

variable {P : Type*} [DecidableEq P]

omit [DecidableEq P] in
@[simp] theorem deliveredIds_append (t t' : List (URBOutput P)) :
    deliveredIds (t ++ t') = deliveredIds t ++ deliveredIds t' := List.filterMap_append

omit [DecidableEq P] in
theorem mem_deliveredIds {t : List (URBOutput P)} {x : URBIdentifier P} :
    x ∈ deliveredIds t ↔ ∃ message, .deliver x message ∈ t := by
  simp only [deliveredIds, List.mem_filterMap]
  constructor
  · rintro ⟨o, ho, h⟩
    cases o with
    | deliver y message => exact ⟨message, Option.some.inj h ▸ ho⟩
    | _ => simp at h
  · exact fun ⟨message, h⟩ => ⟨_, h, rfl⟩

/-- The bookkeeping of a process agrees with the deliveries in its trace. -/
structure Ledger (urb : UniformReliableBroadcast P) (t : List (URBOutput P)) : Prop where
  delivered : ∀ x, urb.wasDelivered x = true ↔ x ∈ deliveredIds t
  cleaned : ∀ q c, urb.deliveredPrefixCleaned q = some c → c + 1 < idSpace
  toClean : ∀ q k, urb.deliveredPrefixToClean q = some k →
    k < idSpace ∧ ∀ i ≤ k, ⟨q, i⟩ ∈ deliveredIds t

theorem UniformReliableBroadcast.wasDelivered_iff (urb : UniformReliableBroadcast P)
    (x : URBIdentifier P) : urb.wasDelivered x = true ↔
      (∃ c, urb.deliveredPrefixCleaned x.peer = some c ∧ x.urbId ≤ c) ∨ x ∈ urb.delivered := by
  simp [wasDelivered, Option.any_eq_true]

/-- The effect of a garbage collection: the ledger is kept and nothing else changes. -/
structure Collected (urb g : UniformReliableBroadcast P) (t : List (URBOutput P)) : Prop where
  ledger : Ledger g t
  ids : g.ids = urb.ids
  pending : g.pending = urb.pending
  acks : g.acks = urb.acks

theorem Ledger.start_eq {urb : UniformReliableBroadcast P} {t : List (URBOutput P)}
    (h : Ledger urb t) (peer : P) :
    ((urb.deliveredPrefixCleaned peer).elim 0 fun c => (c + 1) % idSpace) =
      (urb.deliveredPrefixCleaned peer).elim 0 (· + 1) := by
  cases hc : urb.deliveredPrefixCleaned peer with
  | none => rfl
  | some c => exact Nat.mod_eq_of_lt (h.cleaned peer c hc)

theorem Ledger.start_lt {urb : UniformReliableBroadcast P} {t : List (URBOutput P)}
    (h : Ledger urb t) (peer : P) :
    (urb.deliveredPrefixCleaned peer).elim 0 (· + 1) < idSpace := by
  cases hc : urb.deliveredPrefixCleaned peer with
  | none => norm_num [idSpace]
  | some c => exact h.cleaned peer c hc

/-- An identifier is remembered by the cleaned prefix exactly when it lies before the start of the
next segment. -/
theorem UniformReliableBroadcast.wasDelivered_iff_start (urb : UniformReliableBroadcast P)
    (x : URBIdentifier P) : urb.wasDelivered x = true ↔
      x.urbId < (urb.deliveredPrefixCleaned x.peer).elim 0 (· + 1) ∨ x ∈ urb.delivered := by
  rw [wasDelivered_iff]
  cases urb.deliveredPrefixCleaned x.peer <;> simp

theorem Ledger.collect {urb g : UniformReliableBroadcast P} {t : List (URBOutput P)}
    (h : Ledger urb t) {peer : P} (hg : urb.deliveredGarbageCollection peer = some g) :
    Collected urb g t := by
  unfold UniformReliableBroadcast.deliveredGarbageCollection at hg
  cases hk : urb.deliveredPrefixToClean peer with
  | none =>
      rw [hk] at hg
      obtain rfl := Option.some.inj hg
      exact ⟨h, rfl, rfl, rfl⟩
  | some k =>
      rw [hk] at hg
      obtain ⟨delivered, hloop, rfl⟩ := Option.map_eq_some_iff.1 hg
      obtain ⟨_, hbelow⟩ := h.toClean peer k hk
      rw [h.start_eq peer] at hloop ⊢
      have hstart := h.start_lt peer
      have hkend : k + 1 < idSpace := by
        by_contra hge
        rw [UniformReliableBroadcast.eraseSegment_last (by omega) _ hstart] at hloop
        cases hloop
      have hmem := UniformReliableBroadcast.mem_of_eraseSegment hstart hloop
      split_ifs with hle
      · refine ⟨⟨fun x => ?_, ?_, h.toClean⟩, rfl, rfl, rfl⟩
        · rw [← h.delivered x, UniformReliableBroadcast.wasDelivered_iff_start,
            UniformReliableBroadcast.wasDelivered_iff_start, hmem x]
          by_cases hx : x.peer = peer
          · -- The whole prefix up to `k` was delivered, so it may move to the cleaned prefix.
            have hall : x.urbId ≤ k → urb.wasDelivered x = true := by
              intro hxk
              have := hbelow x.urbId hxk
              rw [← hx] at this
              exact (h.delivered x).2 this
            rw [UniformReliableBroadcast.wasDelivered_iff_start] at hall
            simp only [hx, Function.update_self, Option.elim_some, true_and] at hall ⊢
            constructor
            · rintro (hlt | ⟨hd, _⟩)
              · exact hall (by omega)
              · exact .inr hd
            · rintro (hlt | hd)
              · exact .inl (by omega)
              · by_cases hxk : x.urbId ≤ k
                · exact .inl (by omega)
                · exact .inr ⟨hd, by omega⟩
          · simp [hx]
        · intro q c hc
          change Function.update urb.deliveredPrefixCleaned peer (some k) q = some c at hc
          by_cases hq : q = peer
          · subst hq
            rw [Function.update_self] at hc
            obtain rfl := Option.some.inj hc
            exact hkend
          · rw [Function.update_of_ne hq] at hc
            exact h.cleaned q c hc
      · refine ⟨⟨fun x => ?_, h.cleaned, h.toClean⟩, rfl, rfl, rfl⟩
        rw [← h.delivered x, UniformReliableBroadcast.wasDelivered_iff,
          UniformReliableBroadcast.wasDelivered_iff, hmem x]
        have hempty : ¬(x.peer = peer ∧ (urb.deliveredPrefixCleaned peer).elim 0 (· + 1) ≤ x.urbId ∧
            x.urbId ≤ k) := by omega
        simp [hempty]

/-- Garbage collection returns as long as the last `MessageID` was not delivered. -/
theorem Ledger.collect_isSome {urb : UniformReliableBroadcast P} {t : List (URBOutput P)}
    (h : Ledger urb t) {peer : P} (hlast : ⟨peer, idSpace - 1⟩ ∉ deliveredIds t) :
    (urb.deliveredGarbageCollection peer).isSome = true := by
  unfold UniformReliableBroadcast.deliveredGarbageCollection
  cases hk : urb.deliveredPrefixToClean peer with
  | none => rfl
  | some k =>
      obtain ⟨hklt, hbelow⟩ := h.toClean peer k hk
      have hkend : k + 1 < idSpace := by
        by_contra hge
        exact hlast (hbelow _ (by omega))
      have hfuel : k + 1 - ((urb.deliveredPrefixCleaned peer).elim 0 fun c => (c + 1) % idSpace) <
          idSpace + 1 := by omega
      simpa using UniformReliableBroadcast.eraseSegment_isSome hkend hfuel urb.delivered

theorem Ledger.clean {urb : UniformReliableBroadcast P} {t : List (URBOutput P)}
    (h : Ledger urb t) {peer : P} {k : ℕ} (hk : k < idSpace)
    (hbelow : ∀ i ≤ k, ⟨peer, i⟩ ∈ deliveredIds t) :
    Ledger (urb.cleanDeliveredPrefix peer k) t := by
  refine ⟨h.delivered, h.cleaned, fun q j hj => ?_⟩
  change Function.update urb.deliveredPrefixToClean peer (some k) q = some j at hj
  by_cases hq : q = peer
  · subst hq
    rw [Function.update_self] at hj
    obtain rfl := Option.some.inj hj
    exact ⟨hk, hbelow⟩
  · rw [Function.update_of_ne hq] at hj
    exact h.toClean q j hj

theorem Ledger.onMessage_isSome {urb : UniformReliableBroadcast P} {t : List (URBOutput P)}
    (h : Ledger urb t) {m : URBMessage P} (hlast : ⟨m.source, idSpace - 1⟩ ∉ deliveredIds t)
    (n : ℕ) : (urb.onMessage n m).isSome = true := by
  rw [UniformReliableBroadcast.onMessage]
  split_ifs
  · rfl
  · rw [Option.isSome_map]
    exact h.collect_isSome hlast

/-- Everything the handling of a message can do, `x` being its identifier. -/
inductive Handling (n : ℕ) (urb : UniformReliableBroadcast P) (t : List (URBOutput P))
    (m : URBMessage P) : UniformReliableBroadcast P → List (URBOutput P) → Prop
  | ignored (hx : m.identifier ∈ deliveredIds t) : Handling n urb t m urb []
  | relayed (g : UniformReliableBroadcast P) (hg : Collected urb g t)
      (hx : m.identifier ∉ deliveredIds t) (hp : urb.pending.get m.identifier = none) :
      Handling n urb t m
        { g with
          acks := Function.update g.acks m.identifier (g.acks m.identifier + 1)
          pending := g.pending.set m.identifier m.message }
        [.beb m]
  | delivered (g : UniformReliableBroadcast P) (hg : Collected urb g t)
      (hx : m.identifier ∉ deliveredIds t) (message : Bytes)
      (hp : urb.pending.get m.identifier = some message) (ha : n / 2 < urb.acks m.identifier + 1) :
      Handling n urb t m
        { g with
          delivered := insert m.identifier g.delivered
          pending := (g.pending.take m.identifier).2
          acks := Function.update g.acks m.identifier 0 }
        [.deliver m.identifier message]
  | counted (g : UniformReliableBroadcast P) (hg : Collected urb g t)
      (hx : m.identifier ∉ deliveredIds t) (message : Bytes)
      (hp : urb.pending.get m.identifier = some message) (ha : urb.acks m.identifier + 1 ≤ n / 2) :
      Handling n urb t m
        { g with acks := Function.update g.acks m.identifier (g.acks m.identifier + 1) } []

theorem onMessage_handling {n : ℕ} {urb urb' : UniformReliableBroadcast P}
    {t outs : List (URBOutput P)} {m : URBMessage P} (h : Ledger urb t)
    (hx : urb.onMessage n m = some (urb', outs)) : Handling n urb t m urb' outs := by
  unfold UniformReliableBroadcast.onMessage at hx
  split_ifs at hx with hdel
  · obtain ⟨rfl, rfl⟩ := Prod.mk.inj (Option.some.inj hx)
    exact .ignored ((h.delivered _).1 hdel)
  · obtain ⟨g, hgc, he⟩ := Option.map_eq_some_iff.1 hx
    have hg := h.collect hgc
    have hnot : m.identifier ∉ deliveredIds t := mt (h.delivered _).2 hdel
    have hwas : g.wasDelivered m.identifier = false := by
      apply Bool.eq_false_of_not_eq_true
      exact mt (hg.ledger.delivered _).1 hnot
    cases hp : urb.pending.get m.identifier with
    | none =>
        have hp' : g.pending.get m.identifier = none := hg.pending ▸ hp
        simp only [UniformReliableBroadcast.receive, hp'] at he
        obtain ⟨rfl, rfl⟩ := Prod.mk.inj he
        exact .relayed g hg hnot hp
    | some message =>
        have hp' : g.pending.get m.identifier = some message := hg.pending ▸ hp
        have hwas' : UniformReliableBroadcast.wasDelivered { g with
            acks := Function.update g.acks m.identifier (g.acks m.identifier + 1) }
            m.identifier = false := hwas
        simp only [UniformReliableBroadcast.receive, hp', hwas', Bool.not_false, Bool.and_true,
          canDeliver, decide_eq_true_eq] at he
        split_ifs at he with ha
        · obtain ⟨rfl, rfl⟩ := Prod.mk.inj he
          rw [Function.update_idem]
          exact .delivered g hg hnot message hp (hg.acks ▸ ha)
        · obtain ⟨rfl, rfl⟩ := Prod.mk.inj he
          exact .counted g hg hnot message hp (by rw [← hg.acks]; omega)

end BroadcastService

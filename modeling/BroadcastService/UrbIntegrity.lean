import BroadcastService.UrbLedger

/-!
# Integrity of uniform reliable broadcast

A process best-effort broadcasts an identifier at most once and delivers it at most once, whatever
its garbage collection has forgotten (`UrbLocal`). Identifiers are drawn in order and every copy of
a message carries the payload its source broadcast under that identifier (`urbOrigin`).
-/

namespace BroadcastService
open MessagePassing

section Local

variable {P : Type*} [DecidableEq P]

def bebIds (t : List (URBOutput P)) : List (URBIdentifier P) :=
  t.filterMap fun o => match o with
    | .beb m => some m.identifier
    | _ => none

omit [DecidableEq P] in
@[simp] theorem bebIds_append (t t' : List (URBOutput P)) :
    bebIds (t ++ t') = bebIds t ++ bebIds t' := List.filterMap_append

omit [DecidableEq P] in
theorem mem_bebIds {t : List (URBOutput P)} {x : URBIdentifier P} :
    x ∈ bebIds t ↔ ∃ message, .beb ⟨x.peer, x.urbId, message⟩ ∈ t := by
  simp only [bebIds, List.mem_filterMap]
  constructor
  · rintro ⟨o, ho, h⟩
    cases o with
    | beb m =>
        obtain rfl := Option.some.inj h
        exact ⟨m.message, ho⟩
    | _ => simp at h
  · exact fun ⟨message, h⟩ => ⟨_, h, rfl⟩

structure UrbLocal (urb : UniformReliableBroadcast P) (t : List (URBOutput P)) : Prop where
  ledger : Ledger urb t
  pending : ∀ x message, urb.pending.get x = some message ↔
    .beb ⟨x.peer, x.urbId, message⟩ ∈ t ∧ x ∉ deliveredIds t
  payload : ∀ x message, .deliver x message ∈ t → .beb ⟨x.peer, x.urbId, message⟩ ∈ t
  beb_nodup : (bebIds t).Nodup
  deliver_nodup : (deliveredIds t).Nodup

theorem Ledger.append {urb : UniformReliableBroadcast P} {t t' : List (URBOutput P)}
    (h : Ledger urb t) (ht : deliveredIds t' = []) : Ledger urb (t ++ t') := by
  have he : deliveredIds (t ++ t') = deliveredIds t := by simp [ht]
  exact ⟨by rw [he]; exact h.delivered, h.cleaned, by rw [he]; exact h.toClean⟩

theorem UrbLocal.delivered_beb {urb : UniformReliableBroadcast P} {t : List (URBOutput P)}
    (h : UrbLocal urb t) {x : URBIdentifier P} (hx : x ∈ deliveredIds t) : x ∈ bebIds t := by
  obtain ⟨message, hm⟩ := mem_deliveredIds.1 hx
  exact mem_bebIds.2 ⟨message, h.payload x message hm⟩

theorem UrbLocal.beb_unique {urb : UniformReliableBroadcast P} {t : List (URBOutput P)}
    (h : UrbLocal urb t) {m m' : URBMessage P} (hm : .beb m ∈ t) (hm' : .beb m' ∈ t)
    (hid : m.identifier = m'.identifier) : m = m' := by
  have he := eq_of_nodup_filterMap h.beb_nodup hm hm' rfl (congrArg some hid.symm)
  exact URBOutput.beb.inj he

theorem UrbLocal.pending_none {urb : UniformReliableBroadcast P} {t : List (URBOutput P)}
    (h : UrbLocal urb t) {x : URBIdentifier P} (hx : x ∉ deliveredIds t)
    (hp : urb.pending.get x = none) : x ∉ bebIds t := by
  intro hb
  obtain ⟨message, hm⟩ := mem_bebIds.1 hb
  rw [(h.pending x message).2 ⟨hm, hx⟩] at hp
  cases hp

/-- A process that takes an identifier up for the first time keeps its payload as pending. -/
theorem UrbLocal.take_up {urb urb' : UniformReliableBroadcast P} {t outs : List (URBOutput P)}
    (h : UrbLocal urb t) {m : URBMessage P} (hx : m.identifier ∉ bebIds t)
    (hledger : Ledger urb' t)
    (hpending : urb'.pending = urb.pending.set m.identifier m.message)
    (hdeliver : deliveredIds outs = []) (hbeb : bebIds outs = [m.identifier])
    (hmem : ∀ m', .beb m' ∈ outs ↔ m' = m) : UrbLocal urb' (t ++ outs) := by
  have hnot : m.identifier ∉ deliveredIds t := fun hd => hx (h.delivered_beb hd)
  have hids : deliveredIds (t ++ outs) = deliveredIds t := by simp [hdeliver]
  have hnone : urb.pending.get m.identifier = none := by
    cases hp : urb.pending.get m.identifier with
    | none => rfl
    | some message => exact absurd (mem_bebIds.2 ⟨message, ((h.pending _ _).1 hp).1⟩) hx
  refine ⟨hledger.append hdeliver, fun x message => ?_, fun x message hm => ?_, ?_, ?_⟩
  · rw [hids, hpending, MRMWUnorderedMap.get_set, hnone]
    by_cases hxm : x = m.identifier
    · subst hxm
      rw [if_pos rfl, Option.getD_none]
      have hold : ∀ message, .beb ⟨m.source, m.urbId, message⟩ ∉ t :=
        fun message hmem => hx (mem_bebIds.2 ⟨message, hmem⟩)
      simp only [URBMessage.identifier, List.mem_append, hmem, hold, false_or] at hnot ⊢
      obtain ⟨source, urbId, msg⟩ := m
      simp only [Option.some.injEq, URBMessage.mk.injEq, true_and] at hnot ⊢
      constructor
      · exact fun he => ⟨he.symm, hnot⟩
      · exact fun he => he.1.symm
    · rw [if_neg hxm, h.pending x message]
      have hne : (⟨x.peer, x.urbId, message⟩ : URBMessage P) ≠ m := by
        rintro rfl
        exact hxm rfl
      simp [hmem, hne]
  · have hm' : .deliver x message ∈ t := by
      rcases List.mem_append.1 hm with hm | hm
      · exact hm
      · have : x ∈ deliveredIds outs := mem_deliveredIds.2 ⟨message, hm⟩
        simp [hdeliver] at this
    exact List.mem_append_left _ (h.payload x message hm')
  · rw [bebIds_append, hbeb]
    apply List.Nodup.append h.beb_nodup (List.nodup_singleton _)
    simpa using hx
  · rw [hids]
    exact h.deliver_nodup

theorem Ledger.deliver {g g' : UniformReliableBroadcast P} {t : List (URBOutput P)}
    (h : Ledger g t) (x : URBIdentifier P) (message : Bytes)
    (hdelivered : g'.delivered = insert x g.delivered)
    (hcleaned : g'.deliveredPrefixCleaned = g.deliveredPrefixCleaned)
    (htoClean : g'.deliveredPrefixToClean = g.deliveredPrefixToClean) :
    Ledger g' (t ++ [.deliver x message]) := by
  have hids : deliveredIds (t ++ [.deliver x message]) = deliveredIds t ++ [x] := by
    rw [deliveredIds_append]
    rfl
  refine ⟨fun y => ?_, fun q c hc => h.cleaned q c (hcleaned ▸ hc), fun q k hk => ?_⟩
  · rw [hids, List.mem_append, ← h.delivered y, UniformReliableBroadcast.wasDelivered_iff,
      UniformReliableBroadcast.wasDelivered_iff, hdelivered, hcleaned, Finset.mem_insert,
      List.mem_singleton, or_assoc, or_comm (a := y = x)]
  · rw [htoClean] at hk
    obtain ⟨hlt, hbelow⟩ := h.toClean q k hk
    exact ⟨hlt, fun i hi => by rw [hids]; exact List.mem_append_left _ (hbelow i hi)⟩

theorem Handling.ledger {n : ℕ} {urb urb' : UniformReliableBroadcast P}
    {t outs : List (URBOutput P)} {m : URBMessage P} (hr : Handling n urb t m urb' outs)
    (h : Ledger urb t) : Ledger urb' (t ++ outs) := by
  cases hr with
  | ignored hx => simpa using h
  | relayed g hg hx hp =>
      have hkept : Ledger g (t ++ [.beb m]) := hg.ledger.append rfl
      exact ⟨hkept.delivered, hkept.cleaned, hkept.toClean⟩
  | counted g hg hx message hp ha =>
      rw [List.append_nil]
      exact ⟨hg.ledger.delivered, hg.ledger.cleaned, hg.ledger.toClean⟩
  | delivered g hg hx message hp ha => exact hg.ledger.deliver m.identifier message rfl rfl rfl

theorem UrbLocal.handle {n : ℕ} {urb urb' : UniformReliableBroadcast P}
    {t outs : List (URBOutput P)} {m : URBMessage P} (h : UrbLocal urb t)
    (hr : Handling n urb t m urb' outs) : UrbLocal urb' (t ++ outs) := by
  have hledger := hr.ledger h.ledger
  cases hr with
  | ignored hx => simpa using h
  | relayed g hg hx hp =>
      apply h.take_up (h.pending_none hx hp) (m := m)
      · exact ⟨hg.ledger.delivered, hg.ledger.cleaned, hg.ledger.toClean⟩
      · rw [← hg.pending]
      · rfl
      · rfl
      · simp
  | counted g hg hx message hp ha =>
      rw [List.append_nil] at hledger ⊢
      refine ⟨hledger, ?_, h.payload, h.beb_nodup, h.deliver_nodup⟩
      simp only [hg.pending]
      exact h.pending
  | delivered g hg hx message hp ha =>
      have hids : deliveredIds (t ++ [.deliver m.identifier message]) =
          deliveredIds t ++ [m.identifier] := by
        rw [deliveredIds_append]
        rfl
      have hbeb := ((h.pending m.identifier message).1 hp).1
      refine ⟨hledger, fun y msg => ?_, fun y msg hy => ?_, ?_, ?_⟩
      · rw [hids, hg.pending, MRMWUnorderedMap.get_take]
        by_cases hy : y = m.identifier
        · subst hy
          simp
        · rw [if_neg hy, h.pending y msg]
          simp [hy]
      · rcases List.mem_append.1 hy with hy | hy
        · exact List.mem_append_left _ (h.payload y msg hy)
        · simp only [List.mem_singleton, URBOutput.deliver.injEq] at hy
          obtain ⟨rfl, rfl⟩ := hy
          exact List.mem_append_left _ hbeb
      · simpa [bebIds] using h.beb_nodup
      · rw [hids]
        apply List.Nodup.append h.deliver_nodup (List.nodup_singleton _)
        simpa using hx

theorem UrbLocal.broadcast {urb : UniformReliableBroadcast P} {t : List (URBOutput P)}
    (h : UrbLocal urb t) (me : P) (message : Bytes) (urbId : ℕ)
    (hfresh : ⟨me, urbId⟩ ∉ bebIds t) :
    UrbLocal (urb.broadcast me message urbId).1 (t ++ (urb.broadcast me message urbId).2) := by
  apply h.take_up (m := ⟨me, urbId, message⟩) hfresh
  · exact ⟨h.ledger.delivered, h.ledger.cleaned, h.ledger.toClean⟩
  · rfl
  · rfl
  · rfl
  · simp [UniformReliableBroadcast.broadcast]

theorem UrbLocal.clean {urb : UniformReliableBroadcast P} {t : List (URBOutput P)}
    (h : UrbLocal urb t) {peer : P} {k : ℕ} (hk : k < idSpace)
    (hbelow : ∀ i ≤ k, ⟨peer, i⟩ ∈ deliveredIds t) :
    UrbLocal (urb.cleanDeliveredPrefix peer k) t :=
  ⟨h.ledger.clean hk hbelow, h.pending, h.payload, h.beb_nodup, h.deliver_nodup⟩

end Local

variable {n : ℕ}

abbrev UrbHistory (n : ℕ) :=
  History (Fin n) (UniformReliableBroadcast (Fin n)) (URBMessage (Fin n)) (URBOutput (Fin n))

abbrev UrbWorld (n : ℕ) :=
  World (Fin n) (UniformReliableBroadcast (Fin n)) (URBMessage (Fin n)) (URBOutput (Fin n))

def broadcastIds {P : Type*} (t : List (URBOutput P)) : List ℕ :=
  t.filterMap fun o => match o with
    | .broadcast urbId _ => some urbId
    | _ => none

/-- A process has drawn its identifiers in order and sent what it broadcast. -/
structure Drawn (me : Fin n) (urb : UniformReliableBroadcast (Fin n))
    (t : List (URBOutput (Fin n))) : Prop where
  ids : broadcastIds t = List.range urb.ids
  space : urb.ids ≤ idSpace
  sent : ∀ i message, .broadcast i message ∈ t → .beb ⟨me, i, message⟩ ∈ t

structure UrbOrigin (h : UrbHistory n) : Prop where
  node : ∀ p, UrbLocal (h.node p) (h.trace p)
  drawn : ∀ p, Drawn p (h.node p) (h.trace p)
  source : ∀ p m, .beb m ∈ h.trace p → .broadcast m.urbId m.message ∈ h.trace m.source

theorem mem_packets_beb {p q : Fin n} {m : URBMessage (Fin n)} {t : List (URBOutput (Fin n))} :
    ⟨p, q, m⟩ ∈ (urbProgram n).packets p t ↔ .beb m ∈ t := by
  rw [Program.mem_packets]
  constructor
  · rintro ⟨_, o, ho, hd⟩
    cases o with
    | beb m' =>
        obtain rfl : m = m' := mem_bestEffortBroadcast.1 hd
        exact ho
    | _ => simp [urbProgram, urbEmit] at hd
  · exact fun h => ⟨rfl, _, h, mem_bestEffortBroadcast.2 rfl⟩

theorem beb_of_inflight {w : UrbWorld n} (hw : (urbProgram n).Reachable w) {p q : Fin n}
    {m : URBMessage (Fin n)} (hm : ⟨p, q, m⟩ ∈ w.inflight) : .beb m ∈ w.trace p :=
  mem_packets_beb.1 (Program.mem_sent_of_inflight hw hm)

theorem beb_of_handled {w : UrbWorld n} (hw : (urbProgram n).Reachable w) {p q : Fin n}
    {m : URBMessage (Fin n)} (hm : ⟨p, q, m⟩ ∈ w.handled) : .beb m ∈ w.trace p :=
  mem_packets_beb.1 (Program.mem_sent_of_handled hw hm)

theorem mem_broadcastIds {P : Type*} {t : List (URBOutput P)} {i : ℕ} :
    i ∈ broadcastIds t ↔ ∃ message, .broadcast i message ∈ t := by
  simp only [broadcastIds, List.mem_filterMap]
  constructor
  · rintro ⟨o, ho, h⟩
    cases o with
    | broadcast j message => exact ⟨message, Option.some.inj h ▸ ho⟩
    | _ => simp at h
  · exact fun ⟨message, h⟩ => ⟨_, h, rfl⟩

theorem UrbOrigin.fresh {h : UrbHistory n} (ho : UrbOrigin h) (p q : Fin n) {i : ℕ}
    (hi : (h.node p).ids ≤ i) : ⟨p, i⟩ ∉ bebIds (h.trace q) := by
  intro hb
  obtain ⟨message, hm⟩ := mem_bebIds.1 hb
  have hmem := mem_broadcastIds.2 ⟨message, ho.source q _ hm⟩
  rw [(ho.drawn p).ids, List.mem_range] at hmem
  exact absurd hmem (Nat.not_lt.2 hi)

theorem Handling.ids {m : URBMessage (Fin n)} {urb urb' : UniformReliableBroadcast (Fin n)}
    {t outs : List (URBOutput (Fin n))} (hr : Handling n urb t m urb' outs) :
    urb'.ids = urb.ids ∧ broadcastIds outs = [] ∧ ∀ m', .beb m' ∈ outs → m' = m := by
  cases hr with
  | ignored hx => exact ⟨rfl, rfl, by simp⟩
  | relayed g hg hx hp => exact ⟨hg.ids, rfl, by simp⟩
  | delivered g hg hx message hp ha => exact ⟨hg.ids, rfl, by simp⟩
  | counted g hg hx message hp ha => exact ⟨hg.ids, rfl, by simp⟩

@[simp] theorem broadcastIds_append {P : Type*} (t t' : List (URBOutput P)) :
    broadcastIds (t ++ t') = broadcastIds t ++ broadcastIds t' := List.filterMap_append

theorem Drawn.keep {me : Fin n} {urb urb' : UniformReliableBroadcast (Fin n)}
    {t outs : List (URBOutput (Fin n))} (h : Drawn me urb t) (hids : urb'.ids = urb.ids)
    (houts : broadcastIds outs = []) : Drawn me urb' (t ++ outs) := by
  refine ⟨?_, hids ▸ h.space, fun i message hm => ?_⟩
  · rw [broadcastIds_append, houts, List.append_nil, hids]
    exact h.ids
  · rcases List.mem_append.1 hm with hm | hm
    · exact List.mem_append_left _ (h.sent i message hm)
    · have := mem_broadcastIds.2 ⟨message, hm⟩
      simp [houts] at this

theorem Drawn.broadcast {me : Fin n} {urb urb' : UniformReliableBroadcast (Fin n)}
    {t : List (URBOutput (Fin n))} (h : Drawn me urb t) (hlt : urb.ids < idSpace)
    (hids : urb'.ids = urb.ids + 1) (message : Bytes) :
    Drawn me urb' (t ++ [.broadcast urb.ids message, .beb ⟨me, urb.ids, message⟩]) := by
  refine ⟨?_, by omega, fun i msg hm => ?_⟩
  · rw [broadcastIds_append, h.ids, hids]
    exact List.range_succ.symm
  · rcases List.mem_append.1 hm with hm | hm
    · exact List.mem_append_left _ (h.sent i msg hm)
    · obtain ⟨rfl, rfl⟩ : i = urb.ids ∧ msg = message := by simpa using hm
      simp

theorem UrbOrigin.initial : UrbOrigin (urbProgram n).initial.toHistory := by
  refine ⟨fun p => ⟨⟨fun x => ?_, ?_, ?_⟩, ?_, ?_, List.nodup_nil, List.nodup_nil⟩,
    fun p => ⟨rfl, Nat.zero_le _, ?_⟩, ?_⟩
  · simp [Program.initial, urbProgram, UniformReliableBroadcast.wasDelivered, deliveredIds]
  all_goals simp [Program.initial, urbProgram]

theorem UrbOrigin.broadcast {h : UrbHistory n} (ho : UrbOrigin h) (p : Fin n) (message : Bytes)
    (hids : (h.node p).ids < idSpace) :
    UrbOrigin (h.act p ((h.node p).onInput p (.broadcast message))) := by
  have hid : (h.node p).ids % idSpace = (h.node p).ids := Nat.mod_eq_of_lt hids
  have hcall : (h.node p).onInput p (.broadcast message) =
      UniformReliableBroadcast.broadcast p message (h.node p).ids
        { h.node p with ids := (h.node p).ids + 1 } := by
    simp [UniformReliableBroadcast.onInput, UniformReliableBroadcast.getNextID, hid]
  have hdraw : UrbLocal { h.node p with ids := (h.node p).ids + 1 } (h.trace p) := by
    have hp := ho.node p
    exact ⟨⟨hp.ledger.delivered, hp.ledger.cleaned, hp.ledger.toClean⟩, hp.pending, hp.payload,
      hp.beb_nodup, hp.deliver_nodup⟩
  rw [hcall]
  constructor
  · apply History.forall_act _ _ _ (Q := fun _ => UrbLocal) ho.node
    exact hdraw.broadcast p message _ (ho.fresh p p le_rfl)
  · apply History.forall_act _ _ _ (Q := Drawn) ho.drawn
    exact (ho.drawn p).broadcast hids rfl message
  · intro q m hm
    rcases (History.mem_act_trace ..).1 hm with hm | ⟨_, hm⟩
    · exact History.trace_subset_act _ _ _ _ (ho.source q m hm)
    · obtain rfl : m = ⟨p, (h.node p).ids, message⟩ := by
        simpa [UniformReliableBroadcast.broadcast] using hm
      apply (History.mem_act_trace ..).2
      exact .inr ⟨rfl, by simp [UniformReliableBroadcast.broadcast]⟩

theorem UrbOrigin.clean {h : UrbHistory n} (ho : UrbOrigin h) (p peer : Fin n) {k : ℕ}
    (hk : k < idSpace) (hbelow : ∀ i ≤ k, ⟨peer, i⟩ ∈ deliveredIds (h.trace p)) :
    UrbOrigin (h.act p ((h.node p).onInput p (.cleanDeliveredPrefix peer k))) := by
  constructor
  · apply History.forall_act _ _ _ (Q := fun _ => UrbLocal) ho.node
    rw [UniformReliableBroadcast.onInput, List.append_nil]
    exact (ho.node p).clean hk hbelow
  · exact History.forall_act _ _ _ (Q := Drawn) ho.drawn ((ho.drawn p).keep rfl rfl)
  · intro q m hm
    rcases (History.mem_act_trace ..).1 hm with hm | ⟨_, hm⟩
    · exact History.trace_subset_act _ _ _ _ (ho.source q m hm)
    · cases hm

theorem UrbOrigin.handle {h : UrbHistory n} (ho : UrbOrigin h) {src dst : Fin n}
    {m : URBMessage (Fin n)} (hm : .beb m ∈ h.trace src)
    {urb' : UniformReliableBroadcast (Fin n)} {outs : List (URBOutput (Fin n))}
    (hr : Handling n (h.node dst) (h.trace dst) m urb' outs) :
    UrbOrigin ((h.receive ⟨src, dst, m⟩).act dst (urb', outs)) := by
  obtain ⟨hids, hdraw, hbeb⟩ := hr.ids
  constructor
  · exact History.forall_act _ _ _ (Q := fun _ => UrbLocal) ho.node ((ho.node dst).handle hr)
  · exact History.forall_act _ _ _ (Q := Drawn) ho.drawn ((ho.drawn dst).keep hids hdraw)
  · intro q m' hm'
    apply History.trace_subset_act
    rcases (History.mem_act_trace ..).1 hm' with hm' | ⟨_, hm'⟩
    · exact ho.source q m' hm'
    · rw [hbeb m' hm']
      exact ho.source src m hm

theorem urbOrigin {w : UrbWorld n} (hw : (urbProgram n).Reachable w) : UrbOrigin w.toHistory := by
  apply Program.history_invariant hw UrbOrigin.initial
  · intro w p x r _ ih he hx
    obtain rfl := Option.some.inj hx
    cases x with
    | broadcast message => exact ih.broadcast p message (of_decide_eq_true he)
    | cleanDeliveredPrefix peer k =>
        obtain ⟨hk, hbelow⟩ := Bool.and_eq_true_iff.1 he
        exact ih.clean p peer (of_decide_eq_true hk) (of_decide_eq_true hbelow)
  · rintro w ⟨src, dst, m⟩ ⟨urb', outs⟩ hw ih hm hx
    exact ih.handle (beb_of_inflight hw hm) (onMessage_handling (ih.node dst).ledger hx)

/-- While some identifier of every process is unused, no handler call hangs in the garbage
collection. -/
theorem urb_onMessage_isSome {w : UrbWorld n} (hw : (urbProgram n).Reachable w)
    (hids : ∀ q, (w.node q).ids < idSpace) (p : Fin n) (m : URBMessage (Fin n)) :
    ((w.node p).onMessage n m).isSome = true := by
  have hlast : ⟨m.source, idSpace - 1⟩ ∉ deliveredIds (w.trace p) := by
    intro hd
    apply (urbOrigin hw).fresh m.source p _ (((urbOrigin hw).node p).delivered_beb hd)
    have := hids m.source
    omega
  exact ((urbOrigin hw).node p).ledger.onMessage_isSome hlast n

/-- A property that broadcasts, cleaning requests and every handling of a message keep holds in
every reachable world. -/
theorem urb_invariant {w : UrbWorld n} {I : UrbHistory n → Prop} (hw : (urbProgram n).Reachable w)
    (h₀ : I (urbProgram n).initial.toHistory)
    (hin : ∀ (w : UrbWorld n) p x, (urbProgram n).Reachable w → I w.toHistory →
      x.enabled (w.node p) (w.trace p) = true →
      I (w.toHistory.act p ((w.node p).onInput p x)))
    (hhandle : ∀ (w : UrbWorld n) src dst m urb' outs, (urbProgram n).Reachable w →
      I w.toHistory → ⟨src, dst, m⟩ ∈ w.inflight →
      Handling n (w.node dst) (w.trace dst) m urb' outs →
      I ((w.toHistory.receive ⟨src, dst, m⟩).act dst (urb', outs))) : I w.toHistory := by
  apply Program.history_invariant hw h₀
  · intro w p x r hw ih he hx
    obtain rfl := Option.some.inj hx
    exact hin w p x hw ih he
  · rintro w ⟨src, dst, m⟩ ⟨urb', outs⟩ hw ih hm hx
    exact hhandle w src dst m urb' outs hw ih hm
      (onMessage_handling ((urbOrigin hw).node dst).ledger hx)

end BroadcastService

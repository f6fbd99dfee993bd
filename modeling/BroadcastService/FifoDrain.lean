import BroadcastService.FifoBroadcast

/-!
# The drain loop of FIFO broadcast

`D` is the list of URB deliveries so far, `F` the calls of `Deliver` so far and `K s` the number of
messages of source `s` that were FIFO-delivered. `FifoCore` relates the counters, the contracts and
the calls to `K`; `FifoPending` says that the pending maps hold the URB-delivered messages from `K
s` on. The loop keeps both and leaves `K s` at the first identifier that was not URB-delivered
(`drain_spec`).

What is said about the contracts of local broadcasts depends on `A`, the assumption that a local
identifier is URB-delivered only after its `Broadcast`.
-/

namespace BroadcastService

variable {P : Type*} [DecidableEq P]

def deliveries (outs : List (FIFOOutput P)) : List (FIFODelivery P) :=
  outs.filterMap fun o => match o with
    | .deliver d => some d
    | _ => none

omit [DecidableEq P] in
@[simp] theorem deliveries_append (l l' : List (FIFOOutput P)) :
    deliveries (l ++ l') = deliveries l ++ deliveries l' := List.filterMap_append

namespace FIFOBroadcast

variable (localID : P) (fifo : FIFOBroadcast P) (peer : P) (id : ℕ) (message : Bytes)

@[simp] theorem deliver_nextIds :
    (fifo.deliver localID peer id message).1.nextIds = fifo.nextIds := by
  unfold deliver
  split <;> rfl

@[simp] theorem deliver_pendings :
    (fifo.deliver localID peer id message).1.pendings = fifo.pendings := by
  unfold deliver
  split <;> rfl

@[simp] theorem deliver_contracts :
    (fifo.deliver localID peer id message).1.contracts = fifo.contracts := by
  unfold deliver
  split <;> rfl

@[simp] theorem deliver_urb : (fifo.deliver localID peer id message).1.urb =
    fifo.urb.cleanDeliveredPrefix peer id := by
  unfold deliver
  split <;> rfl

theorem deliver_entries (i : ℕ) :
    (fifo.deliver localID peer id message).1.broadcastMessageEntries.get i =
      if peer = localID ∧ i = id then none else fifo.broadcastMessageEntries.get i := by
  unfold deliver
  split_ifs with hp hi hi
  · exact (MRMWUnorderedMap.get_take ..).trans (if_pos hi.2)
  · exact (MRMWUnorderedMap.get_take ..).trans (if_neg fun he => hi ⟨hp, he⟩)
  · exact absurd hi.1 hp
  · rfl

theorem deliver_snd : (fifo.deliver localID peer id message).2 =
    ⟨peer, id, message,
      if peer = localID then fifo.broadcastMessageEntries.get id else none⟩ := by
  unfold deliver
  split <;> rfl

end FIFOBroadcast

structure FifoCore (A : Prop) (localID : P) (fifo : FIFOBroadcast P)
    (D : List (URBIdentifier P × Bytes)) (F : List (FIFODelivery P)) (K : P → ℕ) : Prop where
  below : ∀ s, ∀ i < K s, ∃ m, (⟨s, i⟩, m) ∈ D
  next : ∀ s, fifo.nextIds s = K s % idSpace
  order : ∀ s, (F.filter fun d => d.peer = s).map (·.id) = List.range (K s)
  payload : ∀ d ∈ F, (⟨d.peer, d.id⟩, d.message) ∈ D
  fulfilled : A → ∀ d ∈ F, d.fulfilled = if d.peer = localID then some d.id else none
  entries : A → ∀ i, fifo.broadcastMessageEntries.get i =
    if K localID ≤ i ∧ i < fifo.contracts then some i else none

structure FifoPending (fifo : FIFOBroadcast P) (D : List (URBIdentifier P × Bytes))
    (K : P → ℕ) : Prop where
  sorted : ∀ s, (fifo.pendings s).Pairwise fun a b => a.1 < b.1
  mem : ∀ s i m, (i, m) ∈ fifo.pendings s ↔ K s ≤ i ∧ (⟨s, i⟩, m) ∈ D

/-- What the FIFO layer expects of the URB deliveries: identifiers are 32-bit numbers, no identifier
comes twice, and under `A` a local one only after its `Broadcast`. -/
structure Deliverable (A : Prop) (localID : P) (contracts : ℕ)
    (D : List (URBIdentifier P × Bytes)) : Prop where
  space : ∀ e ∈ D, e.1.urbId < idSpace
  distinct : (D.map (·.1)).Nodup
  afterBroadcast : A → ∀ i m, (⟨localID, i⟩, m) ∈ D → i < contracts

theorem FifoCore.advance {A : Prop} {localID : P} {fifo : FIFOBroadcast P}
    {D : List (URBIdentifier P × Bytes)} {F : List (FIFODelivery P)} {K : P → ℕ}
    (h : FifoCore A localID fifo D F K) (fifo' : FIFOBroadcast P) {s : P} {m : Bytes}
    (hm : (⟨s, K s⟩, m) ∈ D)
    (hlocal : A → s = localID → K s < fifo.contracts)
    (hnext : fifo'.nextIds = Function.update fifo.nextIds s ((fifo.nextIds s + 1) % idSpace))
    (hentries : fifo'.broadcastMessageEntries = fifo.broadcastMessageEntries)
    (hcontracts : fifo'.contracts = fifo.contracts) :
    FifoCore A localID (fifo'.deliver localID s (K s) m).1 D
      (F ++ [(fifo'.deliver localID s (K s) m).2]) (Function.update K s (K s + 1)) := by
  refine ⟨fun q i hi => ?_, fun q => ?_, fun q => ?_, fun d hd => ?_, fun hA d hd => ?_,
    fun hA i => ?_⟩
  · by_cases hq : q = s
    · subst hq
      rw [Function.update_self] at hi
      by_cases he : i = K q
      · exact ⟨m, he ▸ hm⟩
      · exact h.below q i (by omega)
    · rw [Function.update_of_ne hq] at hi
      exact h.below q i hi
  · rw [FIFOBroadcast.deliver_nextIds, hnext]
    by_cases hq : q = s
    · subst hq
      rw [Function.update_self, Function.update_self, h.next q, Nat.mod_add_mod]
    · rw [Function.update_of_ne hq, Function.update_of_ne hq]
      exact h.next q
  · rw [List.filter_append, List.map_append, h.order q, FIFOBroadcast.deliver_snd]
    by_cases hq : q = s
    · subst hq
      simp [List.range_succ]
    · simp [Function.update_of_ne hq, Ne.symm hq]
  · rcases List.mem_append.1 hd with hd | hd
    · exact h.payload d hd
    · rw [List.mem_singleton.1 hd, FIFOBroadcast.deliver_snd]
      exact hm
  · rcases List.mem_append.1 hd with hd | hd
    · exact h.fulfilled hA d hd
    · rw [List.mem_singleton.1 hd, FIFOBroadcast.deliver_snd]
      split_ifs with hs
      · rw [hentries, h.entries hA, if_pos ⟨hs ▸ le_rfl, hlocal hA hs⟩]
      · rfl
  · rw [FIFOBroadcast.deliver_entries, FIFOBroadcast.deliver_contracts, hcontracts, hentries,
      h.entries hA]
    by_cases hs : s = localID
    · subst hs
      rw [Function.update_self]
      by_cases hi : i = K s
      · simp [hi]
      · have hle : K s + 1 ≤ i ↔ K s ≤ i := by omega
        simp [hi, hle]
    · rw [Function.update_of_ne (Ne.symm hs)]
      simp [hs]

theorem mem_emplace {id : ℕ} {message : Bytes} {l : List (ℕ × Bytes)}
    (hnew : ∀ e ∈ l, e.1 ≠ id) {e : ℕ × Bytes} :
    e ∈ emplace id message l ↔ e = (id, message) ∨ e ∈ l := by
  induction l with
  | nil => simp [emplace]
  | cons a l ih =>
      have ha : id ≠ a.1 := Ne.symm (hnew a (by simp))
      rw [emplace]
      split_ifs with hlt
      · simp
      · rw [List.mem_cons, ih fun e he => hnew e (by simp [he]), List.mem_cons]
        exact or_left_comm

theorem sorted_emplace {id : ℕ} {message : Bytes} {l : List (ℕ × Bytes)}
    (hnew : ∀ e ∈ l, e.1 ≠ id) (hl : l.Pairwise fun a b => a.1 < b.1) :
    (emplace id message l).Pairwise fun a b => a.1 < b.1 := by
  induction l with
  | nil => simp [emplace]
  | cons a l ih =>
      have ha : id ≠ a.1 := Ne.symm (hnew a (by simp))
      obtain ⟨hhead, htail⟩ := List.pairwise_cons.1 hl
      rw [emplace]
      split_ifs with hlt
      · apply List.pairwise_cons.2
        refine ⟨fun e he => ?_, hl⟩
        rcases List.mem_cons.1 he with rfl | he
        · exact hlt
        · exact hlt.trans (hhead e he)
      · apply List.pairwise_cons.2
        have hnew' : ∀ e ∈ l, e.1 ≠ id := fun e he => hnew e (by simp [he])
        refine ⟨fun e he => ?_, ih hnew' htail⟩
        rcases (mem_emplace hnew').1 he with rfl | he
        · simp only
          omega
        · exact hhead e he

theorem drain_cons {localID s : P} {fifo : FIFOBroadcast P} {id : ℕ} {message : Bytes}
    (l : List (ℕ × Bytes)) (he : fifo.nextIds s = id) (fifo' : FIFOBroadcast P)
    (hfifo : fifo' = { fifo with
      nextIds := Function.update fifo.nextIds s ((fifo.nextIds s + 1) % idSpace)
      pendings := Function.update fifo.pendings s l }) :
    fifo.drain localID s ((id, message) :: l) =
      (((fifo'.deliver localID s id message).1.drain localID s l).1,
        .deliver (fifo'.deliver localID s id message).2 ::
          ((fifo'.deliver localID s id message).1.drain localID s l).2) := by
  rw [FIFOBroadcast.drain, if_pos he, hfifo]

/-- The drain loop delivers up to the first identifier of the source that was not URB-delivered. -/
theorem drain_spec {A : Prop} {localID : P} (s : P) {D : List (URBIdentifier P × Bytes)}
    (l : List (ℕ × Bytes)) {fifo : FIFOBroadcast P} {F : List (FIFODelivery P)} {K : P → ℕ}
    (hl : fifo.pendings s = l) (hD : Deliverable A localID fifo.contracts D)
    (h : FifoCore A localID fifo D F K) (hp : FifoPending fifo D K) :
    ∃ K', FifoCore A localID (fifo.drain localID s l).1 D
        (F ++ deliveries (fifo.drain localID s l).2) K' ∧
      FifoPending (fifo.drain localID s l).1 D K' ∧
      (∀ m, (⟨s, K' s⟩, m) ∉ D) ∧ (∀ q, q ≠ s → K' q = K q) ∧
      (fifo.drain localID s l).1.contracts = fifo.contracts := by
  induction l generalizing fifo F K with
  | nil =>
      refine ⟨K, by simpa [FIFOBroadcast.drain, deliveries] using h, hp, fun m hm => ?_,
        fun q _ => rfl, rfl⟩
      have := (hp.mem s (K s) m).2 ⟨le_rfl, hm⟩
      rw [hl] at this
      cases this
  | cons e l ih =>
      obtain ⟨id, message⟩ := e
      obtain ⟨hle, hmem⟩ := (hp.mem s id message).1 (by simp [hl])
      have hid := hD.space _ hmem
      have hsorted := hp.sorted s
      rw [hl] at hsorted
      obtain ⟨hhead, htail⟩ := List.pairwise_cons.1 hsorted
      have hK : K s % idSpace = K s := Nat.mod_eq_of_lt (lt_of_le_of_lt hle hid)
      by_cases he : fifo.nextIds s = id
      · obtain rfl : K s = id := by rw [← hK, ← h.next s, he]
        rw [drain_cons l he _ rfl]
        generalize hfifo : { fifo with
          nextIds := Function.update fifo.nextIds s ((fifo.nextIds s + 1) % idSpace)
          pendings := Function.update fifo.pendings s l } = fifo'
        have hpend' : fifo'.pendings = Function.update fifo.pendings s l := by rw [← hfifo]
        have hcontracts : (fifo'.deliver localID s (K s) message).1.contracts =
            fifo.contracts := by rw [FIFOBroadcast.deliver_contracts, ← hfifo]
        have hcore := h.advance fifo' hmem
          (fun hA hs => hD.afterBroadcast hA (K s) message (hs ▸ hmem))
          (by rw [← hfifo]) (by rw [← hfifo]) (by rw [← hfifo])
        have hpending : FifoPending (fifo'.deliver localID s (K s) message).1 D
            (Function.update K s (K s + 1)) := by
          constructor
          · intro q
            rw [FIFOBroadcast.deliver_pendings, hpend']
            by_cases hq : q = s
            · rw [hq, Function.update_self]
              exact htail
            · rw [Function.update_of_ne hq]
              exact hp.sorted q
          · intro q i m
            rw [FIFOBroadcast.deliver_pendings, hpend']
            by_cases hq : q = s
            · subst hq
              rw [Function.update_self, Function.update_self]
              have hmem' := hp.mem q i m
              rw [hl, List.mem_cons] at hmem'
              constructor
              · intro hi
                exact ⟨hhead _ hi, (hmem'.1 (.inr hi)).2⟩
              · rintro ⟨hi, hDi⟩
                refine (hmem'.2 ⟨by omega, hDi⟩).resolve_left fun heq => ?_
                rw [(Prod.mk.inj heq).1] at hi
                omega
            · rw [Function.update_of_ne hq, Function.update_of_ne hq]
              exact hp.mem q i m
        obtain ⟨K', hcore', hpending', hstop, hother, hsame⟩ :=
          ih (by rw [FIFOBroadcast.deliver_pendings, hpend', Function.update_self])
            (hcontracts ▸ hD) hcore hpending
        refine ⟨K', ?_, hpending', hstop, fun q hq => ?_, hsame.trans hcontracts⟩
        · simpa [deliveries] using hcore'
        · rw [hother q hq, Function.update_of_ne hq]
      · have hstop : fifo.drain localID s ((id, message) :: l) = (fifo, []) := by
          rw [FIFOBroadcast.drain, if_neg he]
        rw [hstop]
        refine ⟨K, by simpa [deliveries] using h, hp, fun m hm => he ?_, fun q _ => rfl, rfl⟩
        have hin := (hp.mem s (K s) m).2 ⟨le_rfl, hm⟩
        rw [hl] at hin
        rcases List.mem_cons.1 hin with heq | hin
        · rw [h.next s, hK, (Prod.mk.inj heq).1]
        · have := hhead _ hin
          simp only at this
          omega

end BroadcastService

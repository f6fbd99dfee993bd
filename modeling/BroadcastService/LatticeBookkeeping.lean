import BroadcastService.LatticeProposer
import BroadcastService.TransitionSystem

/-!
# Bookkeeping of rounds

The state of a round is created by `Propose`, by the first message for the round, or to fill the gap
below a later one. `Session` runs the object on any interleaving of `Propose` calls, each for the
rounds that follow those proposed before, and entries of messages for arbitrary rounds; a message is
handled entry by entry, and handlers of several messages may alternate between entries. Next to the
object it keeps the futures that were returned, the events of each round and the outputs.

`stateAt` reads a round that has no state yet as the one a message would create. With it a handler
changes the state of its own round and no other, whichever states it has to create. An object is
`Numbered` if it made one contract for each state: then the contract of a round is the number of the
round.
-/

namespace BroadcastService.LatticeWire

open TransitionSystem

namespace LatticeAgreement

def stateAt (la : LatticeAgreement) (r : ℕ) : RoundState :=
  la.roundStates[r]?.getD (emptyRoundState r)

def Numbered (la : LatticeAgreement) : Prop := la.contracts = la.roundStates.length

variable {la : LatticeAgreement}

theorem getElem?_eq_stateAt {r : ℕ} (h : r < la.roundStates.length) :
    la.roundStates[r]? = some (la.stateAt r) := by
  rw [stateAt, List.getElem?_eq_getElem h, Option.getD_some]

theorem stateAt_of_length_le {r : ℕ} (h : la.roundStates.length ≤ r) :
    la.stateAt r = emptyRoundState r := by
  rw [stateAt, List.getElem?_eq_none h, Option.getD_none]

theorem lt_length_of_completed {r : ℕ} (h : (la.stateAt r).completed = true) :
    r < la.roundStates.length := by
  by_contra hbeyond
  rw [stateAt_of_length_le (not_lt.1 hbeyond)] at h
  cases h

theorem stateAt_set {r : ℕ} (h : r < la.roundStates.length) (state : RoundState) :
    stateAt { la with roundStates := la.roundStates.set r state } =
      Function.update la.stateAt r state := by
  funext i
  obtain rfl | hi := eq_or_ne i r
  · simp [stateAt, h]
  · rw [Function.update_of_ne hi, stateAt, stateAt, List.getElem?_set_ne hi.symm]

theorem stateAt_append (state : RoundState) (contracts : ℕ) :
    stateAt ⟨la.roundStates ++ [state], contracts⟩ =
      Function.update la.stateAt la.roundStates.length state := by
  funext i
  obtain hlt | rfl | hlt := lt_trichotomy i la.roundStates.length
  · rw [Function.update_of_ne hlt.ne, stateAt, stateAt, List.getElem?_append_left hlt]
  · simp [stateAt]
  · rw [Function.update_of_ne hlt.ne', stateAt_of_length_le hlt.le, stateAt_of_length_le]
    simpa using hlt

theorem iterate_appendEmptyRoundState (h : la.Numbered) (k : ℕ) :
    (appendEmptyRoundState^[k] la).Numbered ∧
      (appendEmptyRoundState^[k] la).roundStates.length = la.roundStates.length + k ∧
      (appendEmptyRoundState^[k] la).stateAt = la.stateAt := by
  induction k with
  | zero => exact ⟨h, rfl, rfl⟩
  | succ k ih =>
      obtain ⟨hnumbered, hlength, hstate⟩ := ih
      rw [Function.iterate_succ_apply']
      refine ⟨?_, ?_, ?_⟩
      · rw [Numbered, appendEmptyRoundState, hnumbered]
        simp
      · simp [appendEmptyRoundState, hlength, Nat.add_assoc]
      · rw [appendEmptyRoundState, stateAt_append, hnumbered, ← hstate]
        exact Function.update_eq_self_iff.2 (stateAt_of_length_le le_rfl).symm

theorem getRoundState_spec (h : la.Numbered) (round : UInt32) :
    ∃ la', la.getRoundState round = some (la', la.stateAt round.toNat) ∧ la'.Numbered ∧
      la'.roundStates.length = max la.roundStates.length (round.toNat + 1) ∧
      la'.stateAt = la.stateAt := by
  rw [getRoundState]
  by_cases hround : la.roundStates.length ≤ round.toNat
  · obtain ⟨hnumbered, hlength, hstate⟩ :=
      iterate_appendEmptyRoundState h (round.toNat + 1 - la.roundStates.length)
    rw [if_pos hround, initializeEmptyRoundStates]
    refine ⟨_, ?_, hnumbered, ?_, hstate⟩
    · rw [getElem?_eq_stateAt (by omega), Option.map_some, hstate]
    · omega
  · rw [if_neg hround]
    refine ⟨la, ?_, h, by omega, rfl⟩
    rw [getElem?_eq_stateAt (by omega), Option.map_some]

theorem withRoundState_spec {β : Type*} (h : la.Numbered) (round : UInt32)
    (f : RoundState → RoundState × β) :
    ∃ la', la.withRoundState round f = some (la', (f (la.stateAt round.toNat)).2) ∧
      la'.Numbered ∧ la'.roundStates.length = max la.roundStates.length (round.toNat + 1) ∧
      la'.stateAt =
        Function.update la.stateAt round.toNat (f (la.stateAt round.toNat)).1 := by
  obtain ⟨la', hget, hnumbered, hlength, hstate⟩ := getRoundState_spec h round
  refine ⟨{ la' with roundStates :=
    la'.roundStates.set round.toNat (f (la.stateAt round.toNat)).1 }, ?_, ?_, ?_, ?_⟩
  · rw [withRoundState, hget]
    rfl
  · rw [Numbered, List.length_set]
    exact hnumbered
  · rw [List.length_set, hlength]
  · rw [stateAt_set (by omega), hstate]

def handleEntry (networkSize : ℕ) (la : LatticeAgreement) (round : UInt32) :
    Entry → Option (LatticeAgreement × List Output)
  | .proposal proposal => (la.handlePropose round proposal).map fun (la, _) => (la, [])
  | .accept accept => la.handleAccept networkSize round accept

/-- An entry changes the state of its round. One with an unknown status creates no state, and leaves
any state as it is. -/
theorem handleEntry_spec (networkSize : ℕ) (h : la.Numbered) (round : UInt32) (entry : Entry) :
    ∃ la', la.handleEntry networkSize round entry =
        some (la', ((la.stateAt round.toNat).handleEntry networkSize round entry).2) ∧
      la'.Numbered ∧ la.roundStates.length ≤ la'.roundStates.length ∧
      la'.stateAt = Function.update la.stateAt round.toNat
        ((la.stateAt round.toNat).handleEntry networkSize round entry).1 ∧
      (la'.roundStates.length ≤ round.toNat →
        ∀ state : RoundState, state.handleEntry networkSize round entry = (state, [])) := by
  match entry with
  | .proposal proposal =>
      obtain ⟨la', hwith, hnumbered, hlength, hstate⟩ :=
        withRoundState_spec h round (RoundState.handlePropose proposal)
      refine ⟨la', ?_, hnumbered, by omega, hstate, by omega⟩
      rw [handleEntry, handlePropose, hwith]
      rfl
  | .accept ⟨.other status hstatus, number, value⟩ =>
      refine ⟨la, rfl, h, le_rfl, ?_, fun _ _ => rfl⟩
      exact (Function.update_eq_self _ _).symm
  | .accept ⟨.ack, number, value⟩ =>
      obtain ⟨la', hwith, hnumbered, hlength, hstate⟩ :=
        withRoundState_spec h round
          (RoundState.handleAccept networkSize round ⟨.ack, number, value⟩)
      exact ⟨la', hwith, hnumbered, by omega, hstate, by omega⟩
  | .accept ⟨.nack, number, value⟩ =>
      obtain ⟨la', hwith, hnumbered, hlength, hstate⟩ :=
        withRoundState_spec h round
          (RoundState.handleAccept networkSize round ⟨.nack, number, value⟩)
      exact ⟨la', hwith, hnumbered, by omega, hstate, by omega⟩

/-- `Propose` for the next round, with the future that a message has left there or with a new one.
`start` is the state it begins with. -/
theorem initializeNextRoundState_spec (h : la.Numbered) {round : UInt32}
    (hround : round.toNat ≤ la.roundStates.length)
    (hkept : (la.stateAt round.toNat).preliminaryFuture = some (some round.toNat))
    (value : List UInt32) :
    ∃ la' start, la.initializeNextRoundState round value = some (la', some round.toNat) ∧
      la'.Numbered ∧ la'.roundStates.length = max la.roundStates.length (round.toNat + 1) ∧
      la'.stateAt = Function.update la.stateAt round.toNat (start.propose value) ∧
      (round.toNat < la.roundStates.length → start = la.stateAt round.toNat) ∧
      (round.toNat = la.roundStates.length → start = .fresh round.toNat none) := by
  obtain hlt | heq := hround.lt_or_eq
  · refine ⟨{ la with roundStates :=
      la.roundStates.set round.toNat ((la.stateAt round.toNat).propose value) },
      la.stateAt round.toNat, ?_, ?_, ?_, ?_, fun _ => rfl, by omega⟩
    · rw [initializeNextRoundState, getElem?_eq_stateAt hlt]
      simp [hkept, RoundState.propose]
    · rw [Numbered, List.length_set]
      exact h
    · rw [List.length_set]
      omega
    · exact stateAt_set hlt _
  · refine ⟨⟨la.roundStates ++ [(RoundState.fresh round.toNat none).propose value],
      la.contracts + 1⟩, .fresh round.toNat none, ?_, ?_, ?_, ?_, by omega, fun _ => rfl⟩
    · rw [initializeNextRoundState, List.getElem?_eq_none heq.ge, if_pos heq, h, ← heq]
      rfl
    · rw [Numbered, h]
      simp
    · rw [heq]
      simp
    · rw [heq]
      exact stateAt_append _ _

end LatticeAgreement

/-- `Propose` for a batch, or an entry of a message for a round. -/
inductive Call
  | propose (batch : List Proposal)
  | entry (round : UInt32) (entry : Entry)
  deriving DecidableEq

structure Session where
  la : LatticeAgreement := {}
  futures : List (Option ℕ) := []
  log : List (ℕ × RoundEvent) := []
  outputs : List Output := []
  deriving DecidableEq

def eventsOf (log : List (ℕ × RoundEvent)) (r : ℕ) : List RoundEvent :=
  log.filterMap fun (round, event) => if round = r then some event else none

@[simp] theorem eventsOf_append (log log' : List (ℕ × RoundEvent)) (r : ℕ) :
    eventsOf (log ++ log') r = eventsOf log r ++ eventsOf log' r :=
  List.filterMap_append ..

@[simp] theorem eventsOf_concat_self (log : List (ℕ × RoundEvent)) (r : ℕ) (event : RoundEvent) :
    eventsOf (log ++ [(r, event)]) r = eventsOf log r ++ [event] := by
  simp [eventsOf]

theorem eventsOf_concat_of_ne {round r : ℕ} (h : r ≠ round) (log : List (ℕ × RoundEvent))
    (event : RoundEvent) : eventsOf (log ++ [(round, event)]) r = eventsOf log r := by
  simp [eventsOf, h.symm]

def proposeEvents (first : ℕ) : List Proposal → List (ℕ × RoundEvent)
  | [] => []
  | proposal :: batch => (first, .propose proposal.proposedValue) :: proposeEvents (first + 1) batch

namespace Session

/-- The batch begins with the first round that was not proposed. -/
def step (networkSize : ℕ) (s : Session) : Call → Option Session
  | .propose batch =>
      (s.la.propose ⟨UInt32.ofNat s.futures.length, batch⟩).map fun (la, futures, outs) =>
        { la
          futures := s.futures ++ futures
          log := s.log ++ proposeEvents s.futures.length batch
          outputs := s.outputs ++ outs }
  | .entry round entry =>
      (s.la.handleEntry networkSize round entry).map fun (la, outs) =>
        { s with
          la
          log := s.log ++ [(round.toNat, .entry entry)]
          outputs := s.outputs ++ outs }

/-- No more rounds are proposed than there are round ids. -/
def Admissible (s : Session) : Call → Prop
  | .propose batch => s.futures.length + batch.length ≤ 2 ^ 32
  | .entry _ _ => True

instance (s : Session) (call : Call) : Decidable (s.Admissible call) :=
  match call with
  | .propose batch => inferInstanceAs (Decidable (s.futures.length + batch.length ≤ 2 ^ 32))
  | .entry _ _ => inferInstanceAs (Decidable True)

abbrev Reaches (networkSize : ℕ) : Session → Session → Prop :=
  ReachableIn (step networkSize) Admissible

end Session

def Output.contract : Output → Option ℕ
  | .decide contract _ _ => some contract
  | _ => none

structure Bookkeeping (networkSize : ℕ) (s : Session) : Prop where
  numbered : s.la.Numbered
  opened : s.futures.length ≤ s.la.roundStates.length
  futures : s.futures = (List.range s.futures.length).map some
  /-- A round that was not proposed keeps its future. -/
  kept : ∀ r, s.futures.length ≤ r → (s.la.stateAt r).preliminaryFuture = some (some r)
  replayed : ∀ r, ∃ future, s.la.stateAt r =
    RoundState.replay networkSize (UInt32.ofNat r) (.fresh r future) (eventsOf s.log r)
  /-- The events of a round without a state leave any state as it is. -/
  silent : ∀ r, s.la.roundStates.length ≤ r → ∀ start,
    RoundState.replay networkSize (UInt32.ofNat r) start (eventsOf s.log r) = start
  decided : ∀ contract round value, .decide contract round value ∈ s.outputs →
    contract = round.toNat ∧ (s.la.stateAt contract).completed = true
  fulfilled : (s.outputs.filterMap Output.contract).Nodup

/-- The states of an object are those of an earlier one with the events of their rounds handled. -/
structure Continues (networkSize : ℕ) (la la' : LatticeAgreement) (log : List (ℕ × RoundEvent)) :
    Prop where
  length : la.roundStates.length ≤ la'.roundStates.length
  state : ∀ r < la.roundStates.length, la'.stateAt r =
    RoundState.replay networkSize (UInt32.ofNat r) (la.stateAt r) (eventsOf log r)

variable {networkSize : ℕ} {s s' : Session}

theorem Continues.trans {la la' la'' : LatticeAgreement} {log log' : List (ℕ × RoundEvent)}
    (h : Continues networkSize la la' log) (h' : Continues networkSize la' la'' log') :
    Continues networkSize la la'' (log ++ log') := by
  refine ⟨h.length.trans h'.length, ?_⟩
  intro r hr
  rw [h'.state r (hr.trans_le h.length), h.state r hr, eventsOf_append, RoundState.replay_append]

theorem bookkeeping_start (networkSize : ℕ) : Bookkeeping networkSize {} where
  numbered := rfl
  opened := le_rfl
  futures := rfl
  kept _ _ := rfl
  replayed r := ⟨some (some r), rfl⟩
  silent _ _ _ := rfl
  decided _ _ _ h := absurd h List.not_mem_nil
  fulfilled := List.nodup_nil

theorem Bookkeeping.promise (h : Bookkeeping networkSize s) (r : ℕ) :
    (s.la.stateAt r).promise = r := by
  obtain ⟨future, hreplay⟩ := h.replayed r
  rw [hreplay, RoundState.replay_promise]
  rfl

theorem Continues.refl (networkSize : ℕ) (la : LatticeAgreement) :
    Continues networkSize la la [] :=
  ⟨le_rfl, fun _ _ => rfl⟩

theorem Continues.concat {la la' la'' : LatticeAgreement} {log : List (ℕ × RoundEvent)} {r : ℕ}
    {event : RoundEvent} (h : Continues networkSize la la' log)
    (hlength : la'.roundStates.length ≤ la''.roundStates.length)
    (hother : ∀ i, i ≠ r → la''.stateAt i = la'.stateAt i)
    (hself : r < la'.roundStates.length →
      la''.stateAt r = (la'.stateAt r).step networkSize (UInt32.ofNat r) event) :
    Continues networkSize la la'' (log ++ [(r, event)]) := by
  refine ⟨h.length.trans hlength, ?_⟩
  intro i hi
  obtain rfl | hne := eq_or_ne i r
  · rw [eventsOf_concat_self, RoundState.replay_append, ← h.state i hi,
      hself (hi.trans_le h.length)]
    rfl
  · rw [eventsOf_concat_of_ne hne, hother i hne, h.state i hi]

section Concat
variable {la' : LatticeAgreement} {r : ℕ} {event : RoundEvent}

theorem Bookkeeping.replayed_concat (h : Bookkeeping networkSize s)
    (hother : ∀ i, i ≠ r → la'.stateAt i = s.la.stateAt i)
    (hself : ∃ future, la'.stateAt r = RoundState.replay networkSize (UInt32.ofNat r)
      (.fresh r future) (eventsOf s.log r ++ [event])) (i : ℕ) :
    ∃ future, la'.stateAt i = RoundState.replay networkSize (UInt32.ofNat i) (.fresh i future)
      (eventsOf (s.log ++ [(r, event)]) i) := by
  obtain rfl | hne := eq_or_ne i r
  · rw [eventsOf_concat_self]
    exact hself
  · rw [hother i hne, eventsOf_concat_of_ne hne]
    exact h.replayed i

theorem Bookkeeping.silent_concat (h : Bookkeeping networkSize s)
    (hlength : s.la.roundStates.length ≤ la'.roundStates.length)
    (hself : la'.roundStates.length ≤ r →
      ∀ start : RoundState, start.step networkSize (UInt32.ofNat r) event = start)
    (i : ℕ) (hi : la'.roundStates.length ≤ i) (start : RoundState) :
    RoundState.replay networkSize (UInt32.ofNat i) start
      (eventsOf (s.log ++ [(r, event)]) i) = start := by
  have hold := h.silent i (hlength.trans hi)
  obtain rfl | hne := eq_or_ne i r
  · rw [eventsOf_concat_self, RoundState.replay_append, hold]
    exact hself hi start
  · rw [eventsOf_concat_of_ne hne]
    exact hold start

theorem Bookkeeping.decided_of_keeps (h : Bookkeeping networkSize s)
    (hkeeps : ∀ i, (s.la.stateAt i).completed = true → (la'.stateAt i).completed = true)
    (contract : ℕ) (round : UInt32) (value : List UInt32)
    (hmem : .decide contract round value ∈ s.outputs) :
    contract = round.toNat ∧ (la'.stateAt contract).completed = true := by
  obtain ⟨hcontract, hcompleted⟩ := h.decided contract round value hmem
  exact ⟨hcontract, hkeeps contract hcompleted⟩

end Concat

theorem filterMap_contract_eq_nil {outs : List Output}
    (h : ∀ contract round value, .decide contract round value ∉ outs) :
    outs.filterMap Output.contract = [] := by
  rw [List.filterMap_eq_nil_iff]
  intro out hout
  match out with
  | .broadcast message => rfl
  | .send peer message => rfl
  | .decide contract round value => exact absurd hout (h contract round value)

theorem Bookkeeping.handleEntry_decided (h : Bookkeeping networkSize s) (round : UInt32)
    (entry : Entry) {la' : LatticeAgreement}
    (hstate : la'.stateAt = Function.update s.la.stateAt round.toNat
      ((s.la.stateAt round.toNat).handleEntry networkSize round entry).1) :
    let outputs := s.outputs ++
      ((s.la.stateAt round.toNat).handleEntry networkSize round entry).2
    (∀ contract round value, .decide contract round value ∈ outputs →
      contract = round.toNat ∧ (la'.stateAt contract).completed = true) ∧
    (outputs.filterMap Output.contract).Nodup := by
  have houts := @RoundState.handleEntry_outputs networkSize round entry (s.la.stateAt round.toNat)
  have hframe := @RoundState.handleEntry_frame networkSize round entry (s.la.stateAt round.toNat)
  rw [h.promise] at houts
  generalize (s.la.stateAt round.toNat).handleEntry networkSize round entry = result at *
  have hkeeps : ∀ i, (s.la.stateAt i).completed = true → (la'.stateAt i).completed = true := by
    intro i hcompleted
    rw [hstate]
    obtain rfl | hne := eq_or_ne i round.toNat
    · rw [Function.update_self]
      exact hframe.2.2 hcompleted
    · rwa [Function.update_of_ne hne]
  have hold := h.decided_of_keeps hkeeps
  obtain hnone | ⟨⟨value, hdecide⟩, hopen, hcompleted⟩ := houts
  · constructor
    · intro contract round value hmem
      obtain hmem | hmem := List.mem_append.1 hmem
      · exact hold contract round value hmem
      · exact absurd hmem (hnone contract round value)
    · rw [List.filterMap_append, filterMap_contract_eq_nil hnone, List.append_nil]
      exact h.fulfilled
  · constructor
    · intro contract round value hmem
      obtain hmem | hmem := List.mem_append.1 hmem
      · exact hold contract round value hmem
      · rw [hdecide, List.mem_singleton] at hmem
        cases hmem
        rw [hstate, Function.update_self]
        exact ⟨rfl, hcompleted⟩
    · rw [List.filterMap_append, hdecide]
      refine List.nodup_append.2 ⟨h.fulfilled, List.nodup_singleton _, ?_⟩
      intro contract hmem contract' hmem' heq
      obtain ⟨out, hout, hcontract⟩ := List.mem_filterMap.1 hmem
      obtain rfl := List.mem_singleton.1 hmem'
      match out, hcontract with
      | .decide _ round' value', rfl =>
          have hearlier := (h.decided _ round' value' hout).2
          rw [heq, hopen] at hearlier
          cases hearlier

theorem Bookkeeping.handleEntry (h : Bookkeeping networkSize s) (round : UInt32) (entry : Entry) :
    ∃ s', s.step networkSize (.entry round entry) = some s' ∧ Bookkeeping networkSize s' ∧
      ∃ log, s'.log = s.log ++ log ∧ Continues networkSize s.la s'.la log := by
  obtain ⟨la', heq, hnumbered, hlength, hstate, hsilent⟩ :=
    LatticeAgreement.handleEntry_spec networkSize h.numbered round entry
  have hother : ∀ i, i ≠ round.toNat → la'.stateAt i = s.la.stateAt i := by
    intro i hi
    rw [hstate, Function.update_of_ne hi]
  have hself : la'.stateAt round.toNat =
      ((s.la.stateAt round.toNat).handleEntry networkSize round entry).1 := by
    rw [hstate, Function.update_self]
  obtain ⟨hdecided, hfulfilled⟩ := h.handleEntry_decided round entry hstate
  refine ⟨_, by rw [Session.step, heq]; rfl, ?_, [(round.toNat, .entry entry)], rfl, ?_⟩
  · refine ⟨hnumbered, h.opened.trans hlength, h.futures, ?_, ?_, ?_, hdecided, hfulfilled⟩
    · intro r hr
      obtain rfl | hne := eq_or_ne r round.toNat
      · rw [hself, (RoundState.handleEntry_frame entry _).2.1]
        exact h.kept _ hr
      · rw [hother r hne]
        exact h.kept r hr
    · obtain ⟨future, hreplay⟩ := h.replayed round.toNat
      refine h.replayed_concat hother ⟨future, ?_⟩
      rw [hself, RoundState.replay_append, ← hreplay, UInt32.ofNat_toNat]
      rfl
    · refine h.silent_concat hlength fun hbeyond start => ?_
      rw [UInt32.ofNat_toNat]
      exact congrArg Prod.fst (hsilent hbeyond start)
  · refine (Continues.refl networkSize s.la).concat hlength hother ?_
    intro _
    rw [hself, UInt32.ofNat_toNat]
    rfl

theorem Bookkeeping.openRound (h : Bookkeeping networkSize s) (hlt : s.futures.length < 2 ^ 32)
    (value : List UInt32) :
    ∃ la', s.la.initializeNextRoundState (UInt32.ofNat s.futures.length) value =
        some (la', some s.futures.length) ∧
      Bookkeeping networkSize
        { s with
          la := la'
          futures := s.futures ++ [some s.futures.length]
          log := s.log ++ [(s.futures.length, .propose value)] } ∧
      Continues networkSize s.la la' [(s.futures.length, .propose value)] := by
  have hround : (UInt32.ofNat s.futures.length).toNat = s.futures.length :=
    UInt32.toNat_ofNat_of_lt' hlt
  obtain ⟨la', start, heq, hnumbered, hlength, hstate, hexisting, hnew⟩ :=
    LatticeAgreement.initializeNextRoundState_spec h.numbered (hround.trans_le h.opened)
      (by rw [hround]; exact h.kept _ le_rfl) value
  rw [hround] at heq hlength hstate hexisting hnew
  have hother : ∀ i, i ≠ s.futures.length → la'.stateAt i = s.la.stateAt i := by
    intro i hi
    rw [hstate, Function.update_of_ne hi]
  have hself : la'.stateAt s.futures.length = start.propose value := by
    rw [hstate, Function.update_self]
  have hgrows : s.la.roundStates.length ≤ la'.roundStates.length := by omega
  have hopened : s.futures.length < la'.roundStates.length := by omega
  refine ⟨la', heq, ?_, ?_⟩
  · refine ⟨hnumbered, ?_, ?_, ?_, ?_, ?_, ?_, h.fulfilled⟩
    · rw [List.length_append, List.length_singleton]
      exact hopened
    · simp only [List.length_append, List.length_singleton]
      rw [List.range_succ, List.map_append, ← h.futures]
      rfl
    · intro r hr
      simp only [List.length_append, List.length_singleton] at hr
      rw [hother r (by omega)]
      exact h.kept r (by omega)
    · refine h.replayed_concat hother ?_
      obtain hborn | hunborn := h.opened.lt_or_eq
      · obtain ⟨future, hreplay⟩ := h.replayed s.futures.length
        refine ⟨future, ?_⟩
        rw [hself, hexisting hborn, RoundState.replay_append, ← hreplay]
        rfl
      · refine ⟨none, ?_⟩
        rw [hself, hnew hunborn, RoundState.replay_append, h.silent _ hunborn.ge]
        rfl
    · exact h.silent_concat hgrows fun hbeyond => absurd hopened (not_lt.2 hbeyond)
    · refine h.decided_of_keeps fun i hcompleted => ?_
      obtain rfl | hne := eq_or_ne i s.futures.length
      · rw [hself, hexisting (LatticeAgreement.lt_length_of_completed hcompleted)]
        exact hcompleted
      · rw [hother i hne]
        exact hcompleted
  · refine (Continues.refl networkSize s.la).concat hgrows hother ?_
    intro hborn
    rw [hself, hexisting hborn]
    rfl

theorem Bookkeeping.initializeRoundStates (h : Bookkeeping networkSize s) (batch : List Proposal)
    (hfit : s.futures.length + batch.length ≤ 2 ^ 32) :
    ∃ la' futures, s.la.initializeRoundStates (UInt32.ofNat s.futures.length) batch =
        some (la', futures) ∧
      Bookkeeping networkSize
        { s with
          la := la'
          futures := s.futures ++ futures
          log := s.log ++ proposeEvents s.futures.length batch } ∧
      Continues networkSize s.la la' (proposeEvents s.futures.length batch) := by
  induction batch generalizing s with
  | nil =>
      refine ⟨s.la, [], rfl, ?_, Continues.refl networkSize s.la⟩
      rw [proposeEvents, List.append_nil, List.append_nil]
      exact h
  | cons proposal batch ih =>
      rw [List.length_cons] at hfit
      obtain ⟨la₁, hopen, hbook, hcontinues⟩ := h.openRound (by omega) proposal.proposedValue
      obtain ⟨la', futures, hinit, hbook', hcontinues'⟩ := ih hbook (by simp; omega)
      simp only [List.length_append, List.length_singleton] at hinit hbook' hcontinues'
      refine ⟨la', some s.futures.length :: futures, ?_, ?_, ?_⟩
      · rw [LatticeAgreement.initializeRoundStates, hopen]
        rw [UInt32.ofNat_add] at hinit
        simp only [Option.bind_some]
        exact congrArg _ hinit
      · simpa only [proposeEvents, List.append_assoc, List.cons_append, List.nil_append]
          using hbook'
      · exact hcontinues.trans hcontinues'

theorem Bookkeeping.output (h : Bookkeeping networkSize s) {outs : List Output}
    (hnone : ∀ contract round value, .decide contract round value ∉ outs) :
    Bookkeeping networkSize { s with outputs := s.outputs ++ outs } := by
  refine ⟨h.numbered, h.opened, h.futures, h.kept, h.replayed, h.silent, ?_, ?_⟩
  · intro contract round value hmem
    obtain hmem | hmem := List.mem_append.1 hmem
    · exact h.decided contract round value hmem
    · exact absurd hmem (hnone contract round value)
  · rw [List.filterMap_append, filterMap_contract_eq_nil hnone, List.append_nil]
    exact h.fulfilled

/-- No call fails an assertion, and every call keeps the invariant and the entries. -/
theorem Bookkeeping.step (h : Bookkeeping networkSize s) {call : Call} (hcall : s.Admissible call) :
    ∃ s', s.step networkSize call = some s' ∧ Bookkeeping networkSize s' ∧
      ∃ log, s'.log = s.log ++ log ∧ Continues networkSize s.la s'.la log := by
  cases call with
  | entry round entry => exact h.handleEntry round entry
  | propose batch =>
      obtain ⟨la', futures, hinit, hbook, hcontinues⟩ := h.initializeRoundStates batch hcall
      refine ⟨_, by rw [Session.step, LatticeAgreement.propose, hinit]; rfl, ?_,
        proposeEvents s.futures.length batch, rfl, hcontinues⟩
      refine hbook.output fun contract round value hmem => ?_
      cases List.mem_singleton.1 hmem

theorem Bookkeeping.reaches (h : Bookkeeping networkSize s) (hr : s.Reaches networkSize s') :
    Bookkeeping networkSize s' ∧
      ∃ log, s'.log = s.log ++ log ∧ Continues networkSize s.la s'.la log := by
  induction hr with
  | refl => exact ⟨h, [], (List.append_nil _).symm, Continues.refl networkSize s.la⟩
  | tail hr hcall hstep ih =>
      obtain ⟨hbook, log, hlog, hcontinues⟩ := ih
      obtain ⟨s₂, hstep', hbook', log', hlog', hcontinues'⟩ := hbook.step hcall
      obtain rfl := Option.some.inj (hstep.symm.trans hstep')
      refine ⟨hbook', log ++ log', ?_, hcontinues.trans hcontinues'⟩
      rw [hlog', hlog, List.append_assoc]

theorem Bookkeeping.handleProposals (h : Bookkeeping networkSize s) (round : UInt32)
    (proposals : List Proposal) :
    ∃ s' accepts, s.la.handleProposals round proposals = some (s'.la, accepts) ∧
      accepts.length = proposals.length ∧ s.Reaches networkSize s' := by
  induction proposals generalizing s round with
  | nil => exact ⟨s, [], rfl, rfl, .refl⟩
  | cons proposal proposals ih =>
      have hcall : s.Admissible (.entry round (.proposal proposal)) := trivial
      obtain ⟨s₁, hstep, hbook, -⟩ := h.handleEntry round (.proposal proposal)
      obtain ⟨s', accepts, hrest, hlength, hreaches⟩ := ih hbook (round + 1)
      obtain ⟨⟨la₁, outs⟩, hentry, rfl⟩ := Option.map_eq_some_iff.1 hstep
      obtain ⟨⟨la₂, accept⟩, hpropose, hla⟩ := Option.map_eq_some_iff.1 hentry
      obtain ⟨rfl, rfl⟩ := Prod.mk.inj hla
      refine ⟨s', accept :: accepts, ?_, ?_, ?_⟩
      · rw [LatticeAgreement.handleProposals, hpropose]
        simp only [Option.bind_some]
        exact congrArg _ hrest
      · rw [List.length_cons, hlength, List.length_cons]
      · exact ReachableIn.trans (.tail .refl hcall hstep) hreaches

theorem Bookkeeping.handleAccepts (h : Bookkeeping networkSize s) (round : UInt32)
    (accepts : List Accept) :
    ∃ s' outs, s.la.handleAccepts networkSize round accepts = some (s'.la, outs) ∧
      s'.outputs = s.outputs ++ outs ∧ s.Reaches networkSize s' := by
  induction accepts generalizing s round with
  | nil => exact ⟨s, [], rfl, (List.append_nil _).symm, .refl⟩
  | cons accept accepts ih =>
      have hcall : s.Admissible (.entry round (.accept accept)) := trivial
      obtain ⟨s₁, hstep, hbook, -⟩ := h.handleEntry round (.accept accept)
      obtain ⟨s', outs', hrest, houts, hreaches⟩ := ih hbook (round + 1)
      obtain ⟨⟨la₁, outs⟩, hentry, rfl⟩ := Option.map_eq_some_iff.1 hstep
      refine ⟨s', outs ++ outs', ?_, ?_, ?_⟩
      · have haccept : s.la.handleAccept networkSize round accept = some (la₁, outs) := hentry
        rw [LatticeAgreement.handleAccepts, haccept]
        simp only [Option.bind_some]
        exact congrArg _ hrest
      · rw [houts, List.append_assoc]
      · exact ReachableIn.trans (.tail .refl hcall hstep) hreaches

/-- What the bookkeeping is for. -/
structure Bookkept (networkSize : ℕ) (s : Session) : Prop where
  /-- No assertion fails, whatever comes next, and a message is a run of its entries. -/
  propose : ∀ batch : List Proposal, s.futures.length + batch.length ≤ 2 ^ 32 →
    (s.la.propose ⟨UInt32.ofNat s.futures.length, batch⟩).isSome
  proposalMessage : ∀ (src : UInt8) (message : ProposalMessage),
    ∃ s' outs, s.la.handleProposalMessage src message = some (s'.la, outs) ∧
      s.Reaches networkSize s'
  acceptMessage : ∀ message : AcceptMessage,
    ∃ s' outs, s.la.handleAcceptMessage networkSize message = some (s'.la, outs) ∧
      s'.outputs = s.outputs ++ outs ∧ s.Reaches networkSize s'
  /-- An entry stays at its index, and only the events of its round change it. -/
  entries : ∀ s', s.Reaches networkSize s' → ∃ log, s'.log = s.log ++ log ∧
    ∀ (r : ℕ) (state : RoundState), s.la.roundStates[r]? = some state → s'.la.roundStates[r]? =
      some (RoundState.replay networkSize (UInt32.ofNat r) state (eventsOf log r))
  accepted : ∀ (r : ℕ) (state : RoundState), s.la.roundStates[r]? = some state →
    state.acceptedValue =
      ((proposals (eventsOf s.log r)).map (·.proposedValue)).foldl acceptValue []
  /-- The future of a round belongs to the promise in its state. -/
  futures : ∀ (r : ℕ) (future : Option ℕ), s.futures[r]? = some future →
    ∃ state : RoundState, s.la.roundStates[r]? = some state ∧ future = some state.promise
  promises : (s.la.roundStates.map (·.promise)).Nodup
  decided : ∀ (contract : ℕ) (round : UInt32) (value : List UInt32),
    .decide contract round value ∈ s.outputs →
      ∃ state : RoundState, s.la.roundStates[round.toNat]? = some state ∧
        contract = state.promise ∧
        (round.toNat < s.futures.length → s.futures[round.toNat]? = some (some contract))
  once : (s.outputs.filterMap Output.contract).Nodup

theorem Bookkeeping.getElem?_futures (h : Bookkeeping networkSize s) {r : ℕ}
    (hr : r < s.futures.length) : s.futures[r]? = some (some r) := by
  rw [h.futures]
  simp [hr]

theorem Bookkeeping.promises (h : Bookkeeping networkSize s) :
    s.la.roundStates.map (·.promise) = List.range s.la.roundStates.length := by
  apply List.ext_getElem?
  intro r
  by_cases hr : r < s.la.roundStates.length
  · rw [List.getElem?_map, LatticeAgreement.getElem?_eq_stateAt hr, List.getElem?_range hr,
      Option.map_some, h.promise]
  · rw [List.getElem?_eq_none (by simpa using hr), List.getElem?_eq_none (by simpa using hr)]

theorem Bookkeeping.acceptorStep (h : Bookkeeping networkSize s) {r : ℕ} {proposal : Proposal}
    (hnodup : ∀ handled ∈ proposals (eventsOf s.log r) ++ [proposal],
      handled.proposedValue.Nodup) : AcceptorStep (s.la.stateAt r) proposal := by
  obtain ⟨future, hreplay⟩ := h.replayed r
  rw [hreplay]
  exact acceptorStep_replay networkSize (UInt32.ofNat r) r future hnodup

theorem Bookkeeping.unanswered (h : Bookkeeping networkSize s) {round : UInt32}
    (hnone : ∀ accept, .entry (.accept accept) ∉ eventsOf s.log round.toNat) :
    s.la.Unanswered round := by
  intro state hstate
  have hlt := (List.getElem?_eq_some_iff.1 hstate).1
  rw [LatticeAgreement.getElem?_eq_stateAt hlt] at hstate
  obtain ⟨future, hreplay⟩ := h.replayed round.toNat
  rw [← Option.some.inj hstate, hreplay]
  exact RoundState.replay_counters _ hnone

theorem round_bookkeeping (networkSize : ℕ) {s : Session} (hr : Session.Reaches networkSize {} s) :
    Bookkept networkSize s := by
  have h := ((bookkeeping_start networkSize).reaches hr).1
  constructor
  · intro batch hfit
    obtain ⟨la', futures, hinit, -⟩ := h.initializeRoundStates batch hfit
    rw [LatticeAgreement.propose, hinit]
    rfl
  · intro src message
    obtain ⟨s', accepts, hhandle, -, hreaches⟩ :=
      h.handleProposals message.firstRoundId message.proposals
    refine ⟨s', [.send src ⟨message.firstRoundId, accepts⟩], ?_, hreaches⟩
    rw [LatticeAgreement.handleProposalMessage, hhandle]
    rfl
  · intro message
    exact h.handleAccepts message.firstRoundId message.accepts
  · intro s' hreaches
    obtain ⟨-, log, hlog, hcontinues⟩ := h.reaches hreaches
    refine ⟨log, hlog, ?_⟩
    intro r state hstate
    have hlt := (List.getElem?_eq_some_iff.1 hstate).1
    rw [LatticeAgreement.getElem?_eq_stateAt hlt] at hstate
    rw [LatticeAgreement.getElem?_eq_stateAt (hlt.trans_le hcontinues.length),
      hcontinues.state r hlt, Option.some.inj hstate]
  · intro r state hstate
    have hlt := (List.getElem?_eq_some_iff.1 hstate).1
    rw [LatticeAgreement.getElem?_eq_stateAt hlt] at hstate
    obtain ⟨future, hreplay⟩ := h.replayed r
    rw [← Option.some.inj hstate, hreplay, RoundState.replay_acceptedValue]
    rfl
  · intro r future hfuture
    have hlt := (List.getElem?_eq_some_iff.1 hfuture).1
    refine ⟨_, LatticeAgreement.getElem?_eq_stateAt (hlt.trans_le h.opened), ?_⟩
    rw [h.getElem?_futures hlt] at hfuture
    rw [h.promise, Option.some.inj hfuture]
  · rw [h.promises]
    exact List.nodup_range
  · intro contract round value hmem
    obtain ⟨rfl, hcompleted⟩ := h.decided contract round value hmem
    have hlt := LatticeAgreement.lt_length_of_completed hcompleted
    exact ⟨_, LatticeAgreement.getElem?_eq_stateAt hlt, (h.promise _).symm, h.getElem?_futures⟩
  · exact h.fulfilled

/-- A proposal for round 2 precedes any `Propose`, and round 0 is decided between two batches. -/
def earlyCalls : List Call :=
  [.entry 2 (.proposal ⟨[9], 0⟩), .propose [⟨[1], 0⟩, ⟨[2], 0⟩], .entry 0 (.accept ⟨.ack, 0, []⟩),
    .propose [⟨[3], 0⟩], .entry 2 (.accept ⟨.ack, 0, []⟩)]

theorem round_bookkeeping_early : ∃ s : Session, Bookkept 1 s ∧
    s.futures = [some 0, some 1, some 2] ∧
    s.outputs.filterMap Output.contract = [0, 2] ∧
    s.la.roundStates.map (·.acceptedValue) = [[], [], [9]] := by
  obtain ⟨s, hr, hs⟩ := @exists_reachableIn _ _ (Session.step 1) Session.Admissible {}
    (fun s => s.futures = [some 0, some 1, some 2] ∧
      s.outputs.filterMap Output.contract = [0, 2] ∧
      s.la.roundStates.map (·.acceptedValue) = [[], [], [9]])
    (fun _ => inferInstance) inferInstance earlyCalls (by decide)
  exact ⟨s, round_bookkeeping 1 hr, hs⟩

end BroadcastService.LatticeWire

import BroadcastService.CriticalSections
import BroadcastService.UnorderedMap
import Mathlib.Tactic

/-!
# The spin lock

`concurrency/spinlock.hpp` around the operations of an object, each in a `std::lock_guard`, for any
number of threads. `Lock` exchanges `locked_`, and while it was set reads it until it is clear.
`Unlock` stores. The pauses of the `Spinner` take time only.

The lock is held by at most one thread, so every run has an atomic run with the same calls and
returns (`SpinLocked.linearizable`). With the operations of `MRMWUnorderedMap` this is the map with
each operation in one step (`locked_map_atomic`), also for `Drain`, which moves the values out one
by one.
-/

namespace BroadcastService
open CriticalSections TransitionSystem

/-- `exchanging` is before `exchange`, `loading` before a `load`, `unlocking` before the `store`. -/
inductive SpinPhase (L Op Ret : Type*)
  | idle
  | exchanging (op : Op)
  | loading (op : Op)
  | inside (op : Op) (l : L)
  | unlocking (r : Ret)
  | returning (r : Ret)
  deriving DecidableEq

structure SpinLocked (T σ L Op Ret : Type*) where
  locked : Bool := false
  object : σ
  phase : T → SpinPhase L Op Ret := fun _ => .idle
  history : List (Event T Op Ret) := []

inductive SpinEvent (T Op : Type*)
  | call (t : T) (op : Op)
  | exchange (t : T)
  | load (t : T)
  | exec (t : T)
  | store (t : T)
  | ret (t : T)

variable {T σ L Op Ret : Type*} [DecidableEq T]

namespace SpinLocked

section Step

variable (O : Object σ L Op Ret) (s : SpinLocked T σ L Op Ret)

def setPhase (t : T) (phase : SpinPhase L Op Ret) : SpinLocked T σ L Op Ret :=
  { s with phase := Function.update s.phase t phase }

def exec (t : T) (op : Op) (l : L) : SpinLocked T σ L Op Ret :=
  match O.step l s.object with
  | (object, .inl l') => { s.setPhase t (.inside op l') with object }
  | (object, .inr r) => { s.setPhase t (.unlocking r) with object }

def step : SpinEvent T Op → Option (SpinLocked T σ L Op Ret)
  | .call t op =>
      match s.phase t with
      | .idle => some { s.setPhase t (.exchanging op) with history := s.history ++ [.call t op] }
      | _ => none
  | .exchange t =>
      match s.phase t with
      | .exchanging op =>
          some { s.setPhase t (if s.locked then .loading op else .inside op (O.start op)) with
            locked := true }
      | _ => none
  | .load t =>
      match s.phase t with
      | .loading op => some (s.setPhase t (if s.locked then .loading op else .exchanging op))
      | _ => none
  | .exec t =>
      match s.phase t with
      | .inside op l => some (s.exec O t op l)
      | _ => none
  | .store t =>
      match s.phase t with
      | .unlocking r => some { s.setPhase t (.returning r) with locked := false }
      | _ => none
  | .ret t =>
      match s.phase t with
      | .returning r => some { s.setPhase t .idle with history := s.history ++ [.ret t r] }
      | _ => none

end Step

end SpinLocked

def SpinPhase.holds : SpinPhase L Op Ret → Bool
  | .inside _ _ => true
  | .unlocking _ => true
  | _ => false

namespace SpinLocked

structure Exclusion (s : SpinLocked T σ L Op Ret) : Prop where
  locked : s.locked = true ↔ ∃ t, (s.phase t).holds = true
  unique : ∀ t t', (s.phase t).holds = true → (s.phase t').holds = true → t = t'

variable {O : Object σ L Op Ret} {s s' : SpinLocked T σ L Op Ret} {t : T}

theorem holds_update {x : SpinPhase L Op Ret} (hx : x.holds = (s.phase t).holds) (t' : T) :
    (Function.update s.phase t x t').holds = (s.phase t').holds := by
  rw [Function.update_apply]
  split_ifs with ht
  · rw [hx, ht]
  · rfl

theorem Exclusion.move (h : Exclusion s) {x : SpinPhase L Op Ret}
    (hx : x.holds = (s.phase t).holds) (hphase : s'.phase = Function.update s.phase t x)
    (hlocked : s'.locked = s.locked) : Exclusion s' := by
  constructor
  · simp only [hphase, hlocked, holds_update hx]
    exact h.locked
  · simp only [hphase, holds_update hx]
    exact h.unique

omit [DecidableEq T] in
theorem Exclusion.not_holds (h : Exclusion s) (hlocked : s.locked = false) (t : T) :
    (s.phase t).holds = false := by
  by_contra hne
  have htrue := h.locked.2 ⟨t, Bool.eq_true_of_not_eq_false hne⟩
  rw [hlocked] at htrue
  cases htrue

theorem Exclusion.acquire (h : Exclusion s) (hfree : s.locked = false) {x : SpinPhase L Op Ret}
    (hx : x.holds = true) : Exclusion { s.setPhase t x with locked := true } := by
  have honly : ∀ t', (Function.update s.phase t x t').holds = true → t' = t := by
    intro t' ht'
    by_contra hne
    rw [Function.update_of_ne hne, h.not_holds hfree] at ht'
    cases ht'
  refine ⟨iff_of_true rfl ⟨t, ?_⟩, fun t₁ t₂ h₁ h₂ => (honly t₁ h₁).trans (honly t₂ h₂).symm⟩
  change (Function.update s.phase t x t).holds = true
  rwa [Function.update_self]

theorem Exclusion.release (h : Exclusion s) (ht : (s.phase t).holds = true)
    {x : SpinPhase L Op Ret} (hx : x.holds = false) :
    Exclusion { s.setPhase t x with locked := false } := by
  have hnone : ∀ t', (Function.update s.phase t x t').holds = false := by
    intro t'
    by_cases hne : t' = t
    · rw [hne, Function.update_self, hx]
    · rw [Function.update_of_ne hne]
      by_contra htrue
      exact hne (h.unique t' t (Bool.eq_true_of_not_eq_false htrue) ht)
  constructor
  · refine iff_of_false Bool.false_ne_true ?_
    rintro ⟨t', ht'⟩
    exact absurd ((hnone t').symm.trans ht') Bool.false_ne_true
  · intro t₁ t₂ h₁
    exact absurd ((hnone t₁).symm.trans h₁) Bool.false_ne_true

end SpinLocked

/-- What the lock is for: an operation waits, is in its section, or has left it. -/
def SpinPhase.outer : SpinPhase L Op Ret → Phase L Op Ret
  | .idle => .idle
  | .exchanging op => .waiting op
  | .loading op => .waiting op
  | .inside op l => .inside op l
  | .unlocking r => .left r
  | .returning r => .left r

namespace SpinLocked

variable {O : Object σ L Op Ret} {s s' : SpinLocked T σ L Op Ret} {t : T}

def state (s : SpinLocked T σ L Op Ret) : State T σ L Op Ret where
  object := s.object
  phase t := (s.phase t).outer
  history := s.history

theorem state_update {x : SpinPhase L Op Ret} (hphase : s'.phase = Function.update s.phase t x) :
    s'.state = ⟨s'.object, Function.update s.state.phase t x.outer, s'.history⟩ := by
  have houter : s'.state.phase = Function.update s.state.phase t x.outer := by
    funext t'
    simp only [state, hphase, Function.update_apply]
    split_ifs <;> rfl
  rw [← houter]
  rfl

theorem state_mk (locked : Bool) (object : σ) (x : SpinPhase L Op Ret)
    (history : List (Event T Op Ret)) :
    (⟨locked, object, (s.setPhase t x).phase, history⟩ : SpinLocked T σ L Op Ret).state =
      ⟨object, Function.update s.state.phase t x.outer, history⟩ := state_update rfl

theorem state_stutter {x : SpinPhase L Op Ret} (hphase : s'.phase = Function.update s.phase t x)
    (hx : x.outer = (s.phase t).outer) (hobject : s'.object = s.object)
    (hhistory : s'.history = s.history) : s'.state = s.state := by
  rw [state_update hphase, hx, hobject, hhistory]
  exact congrArg (State.mk s.object · s.history) (Function.update_eq_self t s.state.phase)

omit [DecidableEq T] in
theorem state_phase {x : SpinPhase L Op Ret} (hphase : s.phase t = x) :
    s.state.phase t = x.outer := congrArg SpinPhase.outer hphase

omit [DecidableEq T] in
theorem Exclusion.free (h : Exclusion s) (hlocked : s.locked = false) : s.state.Free := by
  intro t op l hphase
  have hnot := h.not_holds hlocked t
  change (s.phase t).outer = .inside op l at hphase
  generalize s.phase t = x at hphase hnot
  cases x with
  | inside op' l' => cases hnot
  | _ => cases hphase

/-- A step keeps the exclusion, and is a step of the sections or none. -/
theorem Exclusion.step (h : Exclusion s) {event : SpinEvent T Op}
    (hs : s.step O event = some s') :
    Exclusion s' ∧ (s'.state = s.state ∨
      ∃ label, Excluding s.state label ∧ s.state.step O label = some s'.state) := by
  cases event with
  | call t op =>
      simp only [SpinLocked.step] at hs
      split at hs
      · rename_i hphase
        obtain rfl := Option.some.inj hs
        refine ⟨h.move (by rw [hphase]; rfl) rfl rfl, .inr ⟨.call t op, trivial, ?_⟩⟩
        rw [State.step, state_phase hphase, state_mk]
        rfl
      · cases hs
  | exchange t =>
      simp only [SpinLocked.step] at hs
      split at hs
      · rename_i op hphase
        obtain rfl := Option.some.inj hs
        by_cases hlocked : s.locked = true
        · rw [if_pos hlocked]
          exact ⟨h.move (by rw [hphase]; rfl) rfl hlocked.symm,
            .inl (state_stutter rfl (by rw [hphase]; rfl) rfl rfl)⟩
        · have hfree := Bool.eq_false_of_not_eq_true hlocked
          rw [if_neg hlocked]
          refine ⟨h.acquire hfree rfl, .inr ⟨.enter t, h.free hfree, ?_⟩⟩
          rw [State.step, state_phase hphase, state_mk]
          rfl
      · cases hs
  | load t =>
      simp only [SpinLocked.step] at hs
      split at hs
      · rename_i op hphase
        obtain rfl := Option.some.inj hs
        have hholds : (if s.locked then SpinPhase.loading op else .exchanging op :
            SpinPhase L Op Ret).holds = (s.phase t).holds := by
          rw [hphase]
          split_ifs <;> rfl
        have houter : (if s.locked then SpinPhase.loading op else .exchanging op :
            SpinPhase L Op Ret).outer = (s.phase t).outer := by
          rw [hphase]
          split_ifs <;> rfl
        exact ⟨h.move hholds rfl rfl, .inl (state_stutter rfl houter rfl rfl)⟩
      · cases hs
  | exec t =>
      simp only [SpinLocked.step] at hs
      split at hs
      · rename_i op l hphase
        obtain rfl := Option.some.inj hs
        have hobject : s.state.object = s.object := rfl
        rcases hstep : O.step l s.object with ⟨object, l' | r⟩
        · rw [exec, hstep]
          refine ⟨h.move (by rw [hphase]; rfl) rfl rfl, .inr ⟨.exec t, trivial, ?_⟩⟩
          rw [State.step, state_phase hphase, state_mk]
          simp only [SpinPhase.outer, State.exec, hobject, hstep]
          rfl
        · rw [exec, hstep]
          refine ⟨h.move (by rw [hphase]; rfl) rfl rfl, .inr ⟨.exec t, trivial, ?_⟩⟩
          rw [State.step, state_phase hphase, state_mk]
          simp only [SpinPhase.outer, State.exec, hobject, hstep]
          rfl
      · cases hs
  | store t =>
      simp only [SpinLocked.step] at hs
      split at hs
      · rename_i r hphase
        obtain rfl := Option.some.inj hs
        exact ⟨h.release (by rw [hphase]; rfl) rfl,
          .inl (state_stutter rfl (by rw [hphase]; rfl) rfl rfl)⟩
      · cases hs
  | ret t =>
      simp only [SpinLocked.step] at hs
      split at hs
      · rename_i r hphase
        obtain rfl := Option.some.inj hs
        refine ⟨h.move (by rw [hphase]; rfl) rfl rfl, .inr ⟨.ret t, trivial, ?_⟩⟩
        rw [State.step, state_phase hphase, state_mk]
        rfl
      · cases hs

theorem sections_of_reachable {s₀ : σ}
    (hr : Reachable (fun (s : SpinLocked T σ L Op Ret) => s.step O) { object := s₀ } s) :
    Exclusion s ∧ ReachableIn (fun (c : State T σ L Op Ret) => c.step O) Excluding
      { object := s₀ } s.state := by
  apply hr.invariant (I := fun s => Exclusion s ∧
    ReachableIn (fun (c : State T σ L Op Ret) => c.step O) Excluding { object := s₀ } s.state)
  · refine ⟨⟨iff_of_false Bool.false_ne_true ?_, fun t t' ht => ?_⟩, .refl⟩
    · rintro ⟨t, ht⟩
      cases ht
    · cases ht
  · rintro s event s' _ ⟨h, hsections⟩ - hs
    obtain ⟨h', hsame | ⟨label, hex, hstep⟩⟩ := h.step hs
    · exact ⟨h', hsame ▸ hsections⟩
    · exact ⟨h', hsections.tail hex hstep⟩

/-- At most one thread holds the lock, and there is an atomic run with the same calls and returns,
in which the object is the same whenever the lock is free. -/
theorem linearizable {s₀ : σ}
    (hr : Reachable (fun (s : SpinLocked T σ L Op Ret) => s.step O) { object := s₀ } s) :
    (∀ t t', (s.phase t).holds = true → (s.phase t').holds = true → t = t') ∧
      ∃ a, Atomic O s₀ a ∧ a.history = s.history ∧ (s.locked = false → a.object = s.object) := by
  obtain ⟨h, hsections⟩ := sections_of_reachable hr
  obtain ⟨a, ha, hlinearized⟩ := exists_atomic hsections
  exact ⟨h.unique, a, ha, hlinearized.history, fun hlocked => hlinearized.free (h.free hlocked)⟩

end SpinLocked

inductive MapOp (K V : Type*)
  | set (k : K) (v : V)
  | has (k : K)
  | take (k : K)
  | get (k : K)
  | drain
  deriving DecidableEq

inductive MapRet (V : Type*)
  | done
  | has (b : Bool)
  | value (v : Option V)
  | values (vs : List V)
  deriving DecidableEq

/-- `draining` are the values that the loop of `Drain` has moved out. -/
inductive MapLocal (K V : Type*)
  | start (op : MapOp K V)
  | draining (values : List V)
  deriving DecidableEq

section Map

variable {K V : Type*} [DecidableEq K] (movedFrom : V → V)

def MRMWUnorderedMap.call : MapOp K V → MRMWUnorderedMap K V → MRMWUnorderedMap K V × MapRet V
  | .set k v, m => (m.set k v, .done)
  | .has k, m => (m, .has (m.has k))
  | .take k, m => ((m.take k).2, .value (m.take k).1)
  | .get k, m => (m, .value (m.get k))
  | .drain, m => ((m.drain movedFrom).2, .values (m.drain movedFrom).1)

/-- `Drain` moves one value out at a time. -/
def mapObject : Object (MRMWUnorderedMap K V) (MapLocal K V) (MapOp K V) (MapRet V) where
  start := .start
  step
    | .start .drain, m => (m, .inl (.draining []))
    | .start op, m => ((m.call movedFrom op).1, .inr (m.call movedFrom op).2)
    | .draining values, m =>
        match m.buffer[values.length]? with
        | some (k, v) =>
            (⟨m.buffer.set values.length (k, movedFrom v)⟩, .inl (.draining (values ++ [v])))
        | none => (m, .inr (.values values))

variable {movedFrom} {m m' : MRMWUnorderedMap K V}

/-- The map after the loop of `Drain` has moved out the first `k` values. -/
def MRMWUnorderedMap.moved (movedFrom : V → V) (m : MRMWUnorderedMap K V) (k : ℕ) :
    MRMWUnorderedMap K V :=
  ⟨(m.buffer.take k).map (fun e => (e.1, movedFrom e.2)) ++ m.buffer.drop k⟩

omit [DecidableEq K] in
theorem MRMWUnorderedMap.getElem?_moved {k : ℕ} (hk : k ≤ m.buffer.length) :
    (m.moved movedFrom k).buffer[k]? = m.buffer[k]? := by
  have hlength : ((m.buffer.take k).map fun e => (e.1, movedFrom e.2)).length = k := by
    rw [List.length_map, List.length_take, min_eq_left hk]
  rw [moved, List.getElem?_append_right hlength.le, hlength, Nat.sub_self, List.getElem?_drop,
    Nat.add_zero]

omit [DecidableEq K] in
theorem MRMWUnorderedMap.moved_succ {k : ℕ} {key : K} {v : V} (hk : m.buffer[k]? = some (key, v)) :
    m.moved movedFrom (k + 1) =
      ⟨(m.moved movedFrom k).buffer.set k (key, movedFrom v)⟩ := by
  obtain ⟨hlt, he⟩ := List.getElem?_eq_some_iff.1 hk
  have hlength : ((m.buffer.take k).map fun e => (e.1, movedFrom e.2)).length = k := by
    rw [List.length_map, List.length_take, min_eq_left hlt.le]
  have hdrop : m.buffer.drop k = (key, v) :: m.buffer.drop (k + 1) := by
    rw [List.drop_eq_getElem_cons hlt, he]
  simp only [moved]
  rw [List.set_append_right _ _ hlength.le, hlength, Nat.sub_self, hdrop, List.set_cons_zero,
    List.take_add_one, hk, Option.toList_some, List.map_append, List.append_assoc]
  rfl

theorem steps_map {op : MapOp K V} {l : MapLocal K V}
    (h : (mapObject movedFrom).Steps (.start op) m l m') : l = .start op ∧ m' = m ∨
      op = .drain ∧ ∃ k ≤ m.buffer.length, l = .draining ((m.buffer.take k).map (·.2)) ∧
        m' = m.moved movedFrom k := by
  induction h with
  | refl => exact .inl ⟨rfl, rfl⟩
  | tail _ hstep ih =>
      rcases ih with ⟨rfl, rfl⟩ | ⟨rfl, k, hk, rfl, rfl⟩
      · cases op with
        | drain =>
            obtain ⟨rfl, he⟩ := Prod.mk.inj hstep
            obtain rfl := Sum.inl.inj he
            exact .inr ⟨rfl, 0, Nat.zero_le _, rfl, by simp [MRMWUnorderedMap.moved]⟩
        | _ => cases congrArg Prod.snd hstep
      · have hlength : ((m.buffer.take k).map (·.2)).length = k := by
          rw [List.length_map, List.length_take, min_eq_left hk]
        simp only [mapObject, hlength, MRMWUnorderedMap.getElem?_moved hk] at hstep
        cases hget : m.buffer[k]? with
        | none =>
            rw [hget] at hstep
            cases congrArg Prod.snd hstep
        | some e =>
            obtain ⟨key, v⟩ := e
            rw [hget] at hstep
            obtain ⟨rfl, he⟩ := Prod.mk.inj hstep
            obtain rfl := Sum.inl.inj he
            refine .inr ⟨rfl, k + 1, (List.getElem?_eq_some_iff.1 hget).1, ?_,
              (MRMWUnorderedMap.moved_succ hget).symm⟩
            rw [List.take_add_one, hget, List.map_append]
            rfl

/-- An operation run alone does what it does in one step. -/
theorem performs_map {op : MapOp K V} {r : MapRet V}
    (h : (mapObject movedFrom).Performs op m m' r) :
    (Object.ofFun (MRMWUnorderedMap.call movedFrom)).Performs op m m' r := by
  suffices hcall : m.call movedFrom op = (m', r) by
    have hperforms := Object.performs_ofFun (MRMWUnorderedMap.call movedFrom) op m
    rwa [hcall] at hperforms
  obtain ⟨l, t, hsteps, hstep⟩ := h
  rcases steps_map hsteps with ⟨rfl, rfl⟩ | ⟨rfl, k, hk, rfl, rfl⟩
  · cases op with
    | drain => cases congrArg Prod.snd hstep
    | _ =>
        obtain ⟨rfl, he⟩ := Prod.mk.inj hstep
        obtain rfl := Sum.inr.inj he
        rfl
  · have hlength : ((m.buffer.take k).map (·.2)).length = k := by
      rw [List.length_map, List.length_take, min_eq_left hk]
    simp only [mapObject, hlength, MRMWUnorderedMap.getElem?_moved hk] at hstep
    cases hget : m.buffer[k]? with
    | some e =>
        rw [hget] at hstep
        cases congrArg Prod.snd hstep
    | none =>
        rw [hget] at hstep
        obtain ⟨rfl, he⟩ := Prod.mk.inj hstep
        obtain rfl := Sum.inr.inj he
        have hall : m.buffer.length ≤ k := List.getElem?_eq_none_iff.1 hget
        simp [MRMWUnorderedMap.call, MRMWUnorderedMap.drain, MRMWUnorderedMap.moved,
          List.take_of_length_le hall, List.drop_of_length_le hall]

/-- The threads that share a map see it as if each operation was one step, and whenever no thread
has the lock the map is the one after these steps. -/
theorem locked_map_atomic {m₀ : MRMWUnorderedMap K V}
    {s : SpinLocked T (MRMWUnorderedMap K V) (MapLocal K V) (MapOp K V) (MapRet V)}
    (hr : Reachable (fun (s : SpinLocked T (MRMWUnorderedMap K V) (MapLocal K V) (MapOp K V)
      (MapRet V)) => s.step (mapObject movedFrom)) { object := m₀ } s) :
    (∀ t t', (s.phase t).holds = true → (s.phase t').holds = true → t = t') ∧
      ∃ a, Atomic (Object.ofFun (MRMWUnorderedMap.call movedFrom)) m₀ a ∧
        a.history = s.history ∧ (s.locked = false → a.object = s.object) := by
  obtain ⟨hunique, a, ha, hhistory, hobject⟩ := SpinLocked.linearizable hr
  exact ⟨hunique, a, ha.mono fun _ _ _ _ => performs_map, hhistory, hobject⟩

end Map

def drainAndTake : List (SpinEvent Bool (MapOp ℕ ℕ)) :=
  [.call true .drain, .call false (.take 1), .exchange true, .exchange false, .load false,
    .exec true, .exec true, .exec true, .exec true, .store true, .load false, .exchange false,
    .ret true, .exec false, .store false, .ret false]

theorem locked_map_atomic_drained : ∃ s : SpinLocked Bool (MRMWUnorderedMap ℕ ℕ) (MapLocal ℕ ℕ)
    (MapOp ℕ ℕ) (MapRet ℕ),
    s.history = [.call true .drain, .call false (.take 1), .ret true (.values [5, 6]),
      .ret false (.value (some 0))] ∧ s.locked = false ∧
    ∃ a, Atomic (Object.ofFun (MRMWUnorderedMap.call fun _ => 0)) ⟨[(1, 5), (2, 6)]⟩ a ∧
      a.history = s.history ∧ a.object = s.object := by
  obtain ⟨s, hr, hhistory, hlocked⟩ : ∃ s : SpinLocked Bool (MRMWUnorderedMap ℕ ℕ) (MapLocal ℕ ℕ)
      (MapOp ℕ ℕ) (MapRet ℕ), Reachable (fun s => s.step (mapObject fun _ => 0))
        { object := ⟨[(1, 5), (2, 6)]⟩ } s ∧
      s.history = [.call true .drain, .call false (.take 1), .ret true (.values [5, 6]),
        .ret false (.value (some 0))] ∧ s.locked = false :=
    exists_reachable drainAndTake (by decide +kernel)
  obtain ⟨-, a, ha, hsame, hobject⟩ := locked_map_atomic hr
  exact ⟨s, hhistory, hlocked, a, ha, hsame, hobject hlocked⟩

end BroadcastService

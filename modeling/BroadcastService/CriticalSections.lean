import BroadcastService.TransitionSystem
import Mathlib.Logic.Function.Basic
import Mathlib.Logic.Relation

/-!
# Critical sections

An `Object` has operations that run in small steps on a shared state, each with a local state of its
own. In `step` any number of threads call operations and run them in critical sections, whose small
steps interleave with what other threads do outside of theirs. `AtomicStep` is the system in which
an operation is performed in one step between its call and its return.

If a section is entered only while no thread is in one, every run has an atomic run with the same
calls and returns in the same order (`exists_atomic`): a section takes effect with its last step,
and until then the object of the atomic run is the one at the start of the section.
-/

namespace CriticalSections
open TransitionSystem

variable {T σ L Op Ret : Type*}

/-- `step` is the next small step of an operation: it goes on with a new local state or returns. -/
structure Object (σ L Op Ret : Type*) where
  start : Op → L
  step : L → σ → σ × (L ⊕ Ret)

namespace Object

variable (O : Object σ L Op Ret)

/-- Small steps without others in between. -/
inductive Steps (l : L) (s : σ) : L → σ → Prop
  | refl : Steps l s l s
  | tail {l' l'' : L} {s' s'' : σ} : Steps l s l' s' → O.step l' s' = (s'', .inl l'') →
      Steps l s l'' s''

def Performs (op : Op) (s s' : σ) (r : Ret) : Prop :=
  ∃ l t, O.Steps (O.start op) s l t ∧ O.step l t = (s', .inr r)

/-- Operations of one step. -/
def ofFun (f : Op → σ → σ × Ret) : Object σ Op Op Ret where
  start := id
  step op s := ((f op s).1, .inr (f op s).2)

theorem performs_ofFun (f : Op → σ → σ × Ret) (op : Op) (s : σ) :
    (ofFun f).Performs op s (f op s).1 (f op s).2 := ⟨op, s, .refl, rfl⟩

end Object

inductive Event (T Op Ret : Type*)
  | call (t : T) (op : Op)
  | ret (t : T) (r : Ret)
  deriving DecidableEq

inductive AtomicPhase (Op Ret : Type*)
  | idle
  | called (op : Op)
  | performed (r : Ret)

structure AtomicState (T σ Op Ret : Type*) where
  object : σ
  phase : T → AtomicPhase Op Ret := fun _ => .idle
  history : List (Event T Op Ret) := []

inductive AtomicStep [DecidableEq T] (O : Object σ L Op Ret) :
    AtomicState T σ Op Ret → AtomicState T σ Op Ret → Prop
  | call {a : AtomicState T σ Op Ret} {t : T} (op : Op) (h : a.phase t = .idle) :
      AtomicStep O a { a with
        phase := Function.update a.phase t (.called op), history := a.history ++ [.call t op] }
  | perform {a : AtomicState T σ Op Ret} {t : T} {op : Op} {s : σ} {r : Ret}
      (h : a.phase t = .called op) (hop : O.Performs op a.object s r) :
      AtomicStep O a { a with object := s, phase := Function.update a.phase t (.performed r) }
  | ret {a : AtomicState T σ Op Ret} {t : T} {r : Ret} (h : a.phase t = .performed r) :
      AtomicStep O a { a with
        phase := Function.update a.phase t .idle, history := a.history ++ [.ret t r] }

/-- The states of an atomic object that starts with `s₀`. -/
abbrev Atomic [DecidableEq T] (O : Object σ L Op Ret) (s₀ : σ) (a : AtomicState T σ Op Ret) :
    Prop := Relation.ReflTransGen (AtomicStep O) { object := s₀ } a

/-- What operations do matters only when they are run alone. -/
theorem Atomic.mono {L' : Type*} [DecidableEq T] {O : Object σ L Op Ret} {O' : Object σ L' Op Ret}
    (h : ∀ op s s' r, O.Performs op s s' r → O'.Performs op s s' r) {s₀ : σ}
    {a : AtomicState T σ Op Ret} (ha : Atomic O s₀ a) : Atomic O' s₀ a := by
  refine Relation.ReflTransGen.mono ?_ _ _ ha
  rintro a a' (⟨op, hphase⟩ | ⟨hphase, hop⟩ | ⟨hphase⟩)
  · exact .call op hphase
  · exact .perform hphase (h _ _ _ _ hop)
  · exact .ret hphase

inductive Phase (L Op Ret : Type*)
  | idle
  | waiting (op : Op)
  | inside (op : Op) (l : L)
  | left (r : Ret)
  deriving DecidableEq

structure State (T σ L Op Ret : Type*) where
  object : σ
  phase : T → Phase L Op Ret := fun _ => .idle
  history : List (Event T Op Ret) := []

inductive Label (T Op : Type*)
  | call (t : T) (op : Op)
  | enter (t : T)
  | exec (t : T)
  | ret (t : T)

variable [DecidableEq T] (O : Object σ L Op Ret)

namespace State

variable (c : State T σ L Op Ret)

def setPhase (t : T) (phase : Phase L Op Ret) : State T σ L Op Ret :=
  { c with phase := Function.update c.phase t phase }

def exec (t : T) (op : Op) (l : L) : State T σ L Op Ret :=
  match O.step l c.object with
  | (object, .inl l') => { c.setPhase t (.inside op l') with object }
  | (object, .inr r) => { c.setPhase t (.left r) with object }

def step : Label T Op → Option (State T σ L Op Ret)
  | .call t op =>
      match c.phase t with
      | .idle => some { c.setPhase t (.waiting op) with history := c.history ++ [.call t op] }
      | _ => none
  | .enter t =>
      match c.phase t with
      | .waiting op => some (c.setPhase t (.inside op (O.start op)))
      | _ => none
  | .exec t =>
      match c.phase t with
      | .inside op l => some (c.exec O t op l)
      | _ => none
  | .ret t =>
      match c.phase t with
      | .left r => some { c.setPhase t .idle with history := c.history ++ [.ret t r] }
      | _ => none

def Free : Prop := ∀ t op l, c.phase t ≠ .inside op l

end State

def Excluding (c : State T σ L Op Ret) : Label T Op → Prop
  | .enter _ => c.Free
  | _ => True

def Phase.atomic : Phase L Op Ret → AtomicPhase Op Ret
  | .idle => .idle
  | .waiting op => .called op
  | .inside op _ => .called op
  | .left r => .performed r

/-- The object of the atomic run is the one before the section that a thread is in. -/
structure Linearized (c : State T σ L Op Ret) (a : AtomicState T σ Op Ret) : Prop where
  history : a.history = c.history
  phase : ∀ t, a.phase t = (c.phase t).atomic
  free : c.Free → a.object = c.object
  inside : ∀ t op l, c.phase t = .inside op l → O.Steps (O.start op) a.object l c.object
  unique : ∀ t t' op op' l l', c.phase t = .inside op l → c.phase t' = .inside op' l' → t = t'

variable {O} {c c' : State T σ L Op Ret} {a : AtomicState T σ Op Ret} {t : T}

theorem Linearized.update (h : Linearized O c a) (x : Phase L Op Ret) (t' : T) :
    Function.update a.phase t x.atomic t' = (Function.update c.phase t x t').atomic := by
  rw [Function.update_apply, Function.update_apply, h.phase]
  split_ifs <;> rfl

theorem Linearized.outside (h : Linearized O c a) {x : Phase L Op Ret}
    {events : List (Event T Op Ret)} (hold : ∀ op l, c.phase t ≠ .inside op l)
    (hnew : ∀ op l, x ≠ .inside op l) :
    Linearized O { c.setPhase t x with history := c.history ++ events }
      { a with
        phase := Function.update a.phase t x.atomic, history := a.history ++ events } := by
  have hinside : ∀ {t' op l}, Function.update c.phase t x t' = .inside op l →
      c.phase t' = .inside op l := by
    intro t' op l hl
    by_cases ht : t' = t
    · subst ht
      rw [Function.update_self] at hl
      exact absurd hl (hnew op l)
    · rwa [Function.update_of_ne ht] at hl
  refine ⟨congrArg (· ++ events) h.history, h.update x, fun hfree => h.free ?_,
    fun t' op l hl => h.inside t' op l (hinside hl),
    fun t' t'' op op' l l' hl hl' => h.unique t' t'' op op' l l' (hinside hl) (hinside hl')⟩
  intro t' op l hl
  apply hfree t' op l
  change Function.update c.phase t x t' = .inside op l
  rw [Function.update_of_ne, hl]
  rintro rfl
  exact hold op l hl

theorem Linearized.enter (h : Linearized O c a) (hfree : c.Free) {op : Op}
    (hphase : c.phase t = .waiting op) :
    Linearized O (c.setPhase t (.inside op (O.start op))) a := by
  have honly : ∀ {t' op' l}, Function.update c.phase t (.inside op (O.start op)) t' =
      .inside op' l → t' = t := by
    intro t' op' l hl
    by_contra ht
    rw [Function.update_of_ne ht] at hl
    exact hfree t' op' l hl
  refine ⟨h.history, fun t' => ?_, fun hfree' => ?_, fun t' op' l hl => ?_,
    fun t' t'' op' op'' l l' hl hl' => (honly hl).trans (honly hl').symm⟩
  · have hcalled : a.phase t = (Phase.inside op (O.start op) : Phase L Op Ret).atomic := by
      rw [h.phase, hphase]
      rfl
    have hupdate := h.update (t := t) (.inside op (O.start op)) t'
    rwa [← hcalled, Function.update_eq_self] at hupdate
  · exact absurd (Function.update_self ..) (hfree' t op (O.start op))
  · obtain rfl := honly hl
    change Function.update c.phase t' _ t' = _ at hl
    rw [Function.update_self] at hl
    obtain ⟨rfl, rfl⟩ := Phase.inside.inj hl
    rw [h.free hfree]
    exact .refl

/-- A small step of a section. With the last one the operation is performed. -/
theorem Linearized.exec (h : Linearized O c a) {op : Op} {l : L}
    (hphase : c.phase t = .inside op l) :
    ∃ a', Relation.ReflTransGen (AtomicStep O) a a' ∧ Linearized O (c.exec O t op l) a' := by
  have hcalled : a.phase t = .called op := by
    rw [h.phase, hphase]
    rfl
  have hothers : ∀ {x t' op' l'}, t' ≠ t → Function.update c.phase t x t' ≠ .inside op' l' := by
    intro x t' op' l' ht hl
    rw [Function.update_of_ne ht] at hl
    exact ht (h.unique t' t op' op l' l hl hphase)
  have hsteps := h.inside t op l hphase
  rcases hstep : O.step l c.object with ⟨object, l' | r⟩
  · refine ⟨a, .refl, ?_⟩
    rw [State.exec, hstep]
    refine ⟨h.history, fun t' => ?_, fun hfree => ?_, fun t' op' l'' hl => ?_,
      fun t' t'' op' op'' l₁ l₂ hl hl' => ?_⟩
    · have hupdate := h.update (t := t) (.inside op l') t'
      rwa [Phase.atomic, ← hcalled, Function.update_eq_self] at hupdate
    · exact absurd (Function.update_self ..) (hfree t op l')
    · by_cases ht : t' = t
      · subst ht
        change Function.update c.phase t' _ t' = _ at hl
        rw [Function.update_self] at hl
        obtain ⟨rfl, rfl⟩ := Phase.inside.inj hl
        exact hsteps.tail hstep
      · exact absurd hl (hothers ht)
    · by_cases ht : t' = t
      · by_cases ht' : t'' = t
        · rw [ht, ht']
        · exact absurd hl' (hothers ht')
      · exact absurd hl (hothers ht)
  · refine ⟨_, .single (.perform hcalled ⟨l, c.object, hsteps, hstep⟩), ?_⟩
    rw [State.exec, hstep]
    have hnone : ∀ t' op' l', Function.update c.phase t (.left r) t' ≠ .inside op' l' := by
      intro t' op' l' hl
      by_cases ht : t' = t
      · subst ht
        rw [Function.update_self] at hl
        cases hl
      · exact hothers ht hl
    exact ⟨h.history, h.update (.left r), fun _ => rfl,
      fun t' op' l' hl => absurd hl (hnone t' op' l'),
      fun t' _ op' _ l₁ _ hl => absurd hl (hnone t' op' l₁)⟩

theorem Linearized.step (h : Linearized O c a) {label : Label T Op} (hex : Excluding c label)
    (hs : c.step O label = some c') :
    ∃ a', Relation.ReflTransGen (AtomicStep O) a a' ∧ Linearized O c' a' := by
  cases label with
  | call t op =>
      simp only [State.step] at hs
      split at hs
      · rename_i hphase
        obtain rfl := Option.some.inj hs
        have hidle : a.phase t = .idle := by rw [h.phase, hphase, Phase.atomic]
        refine ⟨_, .single (.call op hidle), h.outside ?_ ?_⟩
        · simp [hphase]
        · simp
      · cases hs
  | enter t =>
      simp only [State.step] at hs
      split at hs
      · rename_i op hphase
        obtain rfl := Option.some.inj hs
        exact ⟨a, .refl, h.enter hex hphase⟩
      · cases hs
  | exec t =>
      simp only [State.step] at hs
      split at hs
      · rename_i op l hphase
        obtain rfl := Option.some.inj hs
        exact h.exec hphase
      · cases hs
  | ret t =>
      simp only [State.step] at hs
      split at hs
      · rename_i r hphase
        obtain rfl := Option.some.inj hs
        have hperformed : a.phase t = .performed r := by rw [h.phase, hphase, Phase.atomic]
        refine ⟨_, .single (.ret hperformed), h.outside ?_ ?_⟩
        · simp [hphase]
        · simp
      · cases hs

/-- Every run whose sections exclude each other has an atomic run with the same history. -/
theorem exists_atomic {s₀ : σ}
    (hr : ReachableIn (fun (c : State T σ L Op Ret) => c.step O) Excluding { object := s₀ } c) :
    ∃ a, Atomic O s₀ a ∧ Linearized O c a := by
  apply hr.invariant (I := fun c => ∃ a, Atomic O s₀ a ∧ Linearized O c a)
  · exact ⟨_, .refl, rfl, fun _ => rfl, fun _ => rfl, by simp, by simp⟩
  · rintro c label c' _ ⟨a, ha, h⟩ hex hs
    obtain ⟨a', ha', h'⟩ := h.step hex hs
    exact ⟨a', ha.trans ha', h'⟩

end CriticalSections

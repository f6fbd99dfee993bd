import BroadcastService.IntrusiveList
import BroadcastService.TransitionSystem

/-!
# The batched queue

`concurrency/task_queue.hpp`: a stack of nodes that is taken as a whole and reversed. A
compare-and-swap that succeeds is one step. `lists` are the list variables of the program, by
number; `TryPopAll` stores its result in one of them. The loops run for at most `fuel` rounds, and a
result of `none` stands for a loop that does not end or for access through a null pointer.

`Contents` is the queue as it is meant: sequences of nodes, under `some i` that of list `i` and
under `none` that of the queue. `pushed` and `batches` are what was pushed and what was returned,
read off the memory by following the pointers.
-/

namespace BroadcastService.Tasks
open PointerChain TransitionSystem

variable {N : Type*} [DecidableEq N]

namespace BatchedLFStack

def push (next : Memory N) (top : Option N) (task : N) : Memory N × Option N :=
  (Function.update next task top, some task)

def pushList (next : Memory N) (top : Option N) (list : IntrusiveList N) :
    Option (Memory N × Option N) :=
  match list.head, list.tail with
  | none, _ => some (next, top)
  | some _, some tail => some (Function.update next tail top, list.head)
  | some _, none => none

end BatchedLFStack

def createReverseList : ℕ → Memory N → Option N → IntrusiveList N →
    Option (Memory N × IntrusiveList N)
  | 0, _, _, _ => none
  | _ + 1, next, none, list => some (next, list)
  | fuel + 1, next, some node, list =>
      createReverseList fuel (list.pushFront next node).1 (next node) (list.pushFront next node).2

def reverseList : ℕ → Memory N → IntrusiveList N → IntrusiveList N →
    Option (Memory N × IntrusiveList N)
  | 0, _, _, _ => none
  | fuel + 1, next, list, reversed =>
      match list.popFront next with
      | (none, next, _) => some (next, reversed)
      | (some node, next, list) =>
          reverseList fuel (reversed.pushFront next node).1 list (reversed.pushFront next node).2

structure QueueState (N : Type*) where
  next : Memory N := fun _ => none
  lists : ℕ → IntrusiveList N := fun _ => {}
  top : Option N := none
  pushed : List N := []
  batches : List (List N) := []

inductive QueueEvent (N : Type*)
  | pushBack (i : ℕ) (node : N)
  | pushFront (i : ℕ) (node : N)
  | popFront (i : ℕ)
  | insert (i j : ℕ)
  | move (i j : ℕ)
  | push (task : N)
  | pushList (i : ℕ)
  | tryPopAll (i : ℕ)

namespace QueueState

def setList (s : QueueState N) (i : ℕ) (result : Memory N × IntrusiveList N) : QueueState N :=
  { s with next := result.1, lists := Function.update s.lists i result.2 }

/-- The other list is cleared last, also when it is the same one. -/
def insert (s : QueueState N) (i j : ℕ) : Option (QueueState N) :=
  if (s.lists j).head.isNone then some s
  else ((s.lists i).insert s.next (s.lists j)).map fun result =>
    { s.setList i result with lists := Function.update (s.setList i result).lists j {} }

/-- `operator=` for an expiring list, which is cleared last. -/
def move (s : QueueState N) (i j : ℕ) : QueueState N :=
  { s with lists := Function.update (Function.update s.lists i (s.lists j)) j {} }

def push (s : QueueState N) (task : N) : QueueState N :=
  { s with
    next := (BatchedLFStack.push s.next s.top task).1
    top := (BatchedLFStack.push s.next s.top task).2
    pushed := s.pushed ++ [task] }

def pushList (fuel : ℕ) (s : QueueState N) (i : ℕ) : Option (QueueState N) := do
  let (next, reversed) ← reverseList fuel s.next (s.lists i) {}
  let (next, top) ← BatchedLFStack.pushList next s.top reversed
  return { s with
    next := next
    lists := Function.update s.lists i {}
    top := top
    pushed := s.pushed ++ walk fuel s.next (s.lists i).head }

/-- The list that `TryPopAll` returns for the nodes of the stack. -/
def popBatch (fuel : ℕ) (s : QueueState N) : Option (Memory N × IntrusiveList N) :=
  if s.top.isNone then some (s.next, {}) else createReverseList fuel s.next s.top {}

def tryPopAll (fuel : ℕ) (s : QueueState N) (i : ℕ) : Option (QueueState N) :=
  (s.popBatch fuel).map fun (next, list) =>
    { s with
      next := next
      lists := Function.update s.lists i list
      top := none
      batches := s.batches ++ [walk fuel next list.head] }

def step (fuel : ℕ) (s : QueueState N) : QueueEvent N → Option (QueueState N)
  | .pushBack i node => ((s.lists i).pushBack s.next node).map (s.setList i)
  | .pushFront i node => some (s.setList i ((s.lists i).pushFront s.next node))
  | .popFront i => some (s.setList i ((s.lists i).popFront s.next).2)
  | .insert i j => s.insert i j
  | .move i j => some (s.move i j)
  | .push task => some (s.push task)
  | .pushList i => s.pushList fuel i
  | .tryPopAll i => s.tryPopAll fuel i

end QueueState

structure Contents (N : Type*) where
  content : Option ℕ → List N := fun _ => []
  pushed : List N := []
  batches : List (List N) := []
  added : List N := []

namespace Contents

variable (c : Contents N)

def set (k : Option ℕ) (l : List N) : Contents N :=
  { c with content := Function.update c.content k l }

/-- Appends container `k'` to container `k` and empties it. -/
def moveAll (k k' : Option ℕ) : Contents N := (c.set k (c.content k ++ c.content k')).set k' []

def add (node : N) : Contents N := { c with added := c.added ++ [node] }

def step : QueueEvent N → Contents N
  | .pushBack i node => (c.set (some i) (c.content (some i) ++ [node])).add node
  | .pushFront i node => (c.set (some i) (node :: c.content (some i))).add node
  | .popFront i => c.set (some i) (c.content (some i)).tail
  | .insert i j => c.moveAll (some i) (some j)
  | .move i j => (c.set (some i) []).moveAll (some i) (some j)
  | .push task =>
      { (c.set none (c.content none ++ [task])).add task with pushed := c.pushed ++ [task] }
  | .pushList i =>
      { c.moveAll none (some i) with pushed := c.pushed ++ c.content (some i) }
  | .tryPopAll i =>
      { (c.set (some i) []).moveAll (some i) none with batches := c.batches ++ [c.content none] }

/-- A node that is given to a list or to the queue is in none of them. -/
def Allowed : QueueEvent N → Prop
  | .pushBack _ node | .pushFront _ node | .push node => ∀ k, node ∉ c.content k
  | _ => True

/-- Every node is given to the containers only while it is in none. -/
def Legal : Contents N → List (QueueEvent N) → Prop
  | _, [] => True
  | c, event :: events => c.Allowed event ∧ Legal (c.step event) events

end Contents

namespace IntrusiveList

variable {next : Memory N} {list reversed : IntrusiveList N} {p : Option N} {l r : List N}

theorem Holds.createReverseList (h : Holds next list r) (hchain : Chain next p l)
    (hnodup : (l ++ r).Nodup) {fuel : ℕ} (hfuel : l.length < fuel) :
    ∃ next' list', Tasks.createReverseList fuel next p list = some (next', list') ∧
      Holds next' list' (l.reverse ++ r) ∧ ∀ a ∉ l, next' a = next a := by
  induction l generalizing next list p r fuel with
  | nil =>
      obtain rfl := hchain
      cases fuel with
      | zero => omega
      | succ fuel => exact ⟨next, list, rfl, h, fun a _ => rfl⟩
  | cons node l ih =>
      obtain ⟨rfl, hrest⟩ := hchain
      obtain ⟨hnode, hnodup'⟩ := List.nodup_cons.1 (List.cons_append ▸ hnodup)
      rw [List.mem_append, not_or] at hnode
      cases fuel with
      | zero => omega
      | succ fuel =>
          obtain ⟨hfront, hframe⟩ := h.pushFront hnode.2
          have hrest' : Chain (list.pushFront next node).1 (next node) l :=
            hrest.congr fun a ha => hframe a fun heq => hnode.1 (heq ▸ ha)
          have hnodup'' : (l ++ node :: r).Nodup :=
            List.nodup_middle.2 (List.nodup_cons.2 ⟨by simp [hnode], hnodup'⟩)
          obtain ⟨next', list', heq, hholds, hframe'⟩ :=
            ih hfront hrest' hnodup'' (by simpa using hfuel)
          refine ⟨next', list', heq, ?_, ?_⟩
          · rw [List.reverse_cons, List.append_assoc]
            exact hholds
          · intro a ha
            rw [List.mem_cons, not_or] at ha
            rw [hframe' a ha.2, hframe a ha.1]

theorem Holds.reverseList (h : Holds next list l) (h' : Holds next reversed r)
    (hnodup : (l ++ r).Nodup) {fuel : ℕ} (hfuel : l.length < fuel) :
    ∃ next' reversed', Tasks.reverseList fuel next list reversed = some (next', reversed') ∧
      Holds next' reversed' (l.reverse ++ r) ∧ ∀ a ∉ l, next' a = next a := by
  induction l generalizing next list reversed r fuel with
  | nil =>
      cases fuel with
      | zero => omega
      | succ fuel =>
          refine ⟨next, reversed, ?_, h', fun a _ => rfl⟩
          rw [Tasks.reverseList, h.popFront_nil]
  | cons node l ih =>
      obtain ⟨hnode, hnodup'⟩ := List.nodup_cons.1 (List.cons_append ▸ hnodup)
      rw [List.mem_append, not_or] at hnode
      cases fuel with
      | zero => omega
      | succ fuel =>
          obtain ⟨next₁, list₁, hpop, hlist, hframe₁⟩ := h.popFront_cons
          have hreversed : Holds next₁ reversed r :=
            h'.congr fun a ha => hframe₁ a fun heq => hnode.2 (heq ▸ ha)
          obtain ⟨hfront, hframe₂⟩ := hreversed.pushFront hnode.2
          have hlist' : Holds (reversed.pushFront next₁ node).1 list₁ l :=
            hlist.congr fun a ha => hframe₂ a fun heq => hnode.1 (heq ▸ ha)
          have hnodup'' : (l ++ node :: r).Nodup :=
            List.nodup_middle.2 (List.nodup_cons.2 ⟨by simp [hnode], hnodup'⟩)
          obtain ⟨next', reversed', heq, hholds, hframe₃⟩ :=
            ih hlist' hfront hnodup'' (by simpa using hfuel)
          refine ⟨next', reversed', ?_, ?_, ?_⟩
          · rw [Tasks.reverseList, hpop]
            exact heq
          · rw [List.reverse_cons, List.append_assoc]
            exact hholds
          · intro a ha
            rw [List.mem_cons, not_or] at ha
            rw [hframe₃ a ha.2, hframe₂ a ha.1, hframe₁ a ha.1]

theorem Holds.stackPushList (h : Holds next list l) (hstack : Chain next p r)
    (hnodup : (l ++ r).Nodup) :
    ∃ next' top, BatchedLFStack.pushList next p list = some (next', top) ∧
      Chain next' top (l ++ r) ∧ ∀ a ∉ l, next' a = next a := by
  have hhead := h.chain.head_eq
  rw [BatchedLFStack.pushList]
  cases l with
  | nil =>
      rw [hhead]
      exact ⟨next, p, rfl, hstack, fun a _ => rfl⟩
  | cons b l =>
      obtain ⟨tail, htail⟩ := Option.isSome_iff_exists.1
        (show (b :: l).getLast?.isSome by simp)
      have hmem := List.mem_of_getLast? htail
      have hchain := h.chain.append hstack htail hnodup
      rw [hhead] at hchain
      rw [hhead, h.tail_eq, htail]
      refine ⟨_, _, rfl, hchain, ?_⟩
      intro a ha
      apply Function.update_of_ne
      rintro rfl
      exact ha hmem

end IntrusiveList

/-- What is in a container: under `none` the stack, with the last node on top. -/
def QueueState.HoldsAt (s : QueueState N) : Option ℕ → List N → Prop
  | none, l => Chain s.next s.top l.reverse ∧ l.Nodup
  | some i, l => IntrusiveList.Holds s.next (s.lists i) l

/-- No node is in two containers. -/
def Contents.Owned (c : Contents N) : Prop :=
  ∀ node k k', node ∈ c.content k → node ∈ c.content k' → k = k'

structure Represents (s : QueueState N) (c : Contents N) : Prop where
  holdsAt : ∀ k, s.HoldsAt k (c.content k)
  owned : c.Owned
  added : ∀ k, ∀ node ∈ c.content k, node ∈ c.added
  pushed_eq : s.pushed = c.pushed
  batches_eq : s.batches = c.batches

variable {s s' : QueueState N} {c : Contents N} {fuel : ℕ}

omit [DecidableEq N] in
theorem QueueState.HoldsAt.nodup {k : Option ℕ} {l : List N} (h : s.HoldsAt k l) : l.Nodup := by
  cases k with
  | none => exact h.2
  | some i => exact IntrusiveList.Holds.nodup h

omit [DecidableEq N] in
theorem QueueState.HoldsAt.frame {k : Option ℕ} {l : List N} (h : s.HoldsAt k l)
    (hnext : ∀ a ∈ l, s'.next a = s.next a) (htop : k = none → s'.top = s.top)
    (hlists : ∀ i, k = some i → s'.lists i = s.lists i) : s'.HoldsAt k l := by
  cases k with
  | none =>
      refine ⟨?_, h.2⟩
      rw [htop rfl]
      exact h.1.congr fun a ha => hnext a (List.mem_reverse.1 ha)
  | some i =>
      change IntrusiveList.Holds s'.next (s'.lists i) l
      rw [hlists i rfl]
      exact IntrusiveList.Holds.congr h hnext

omit [DecidableEq N] in
theorem Represents.length_le (h : Represents s c) (k : Option ℕ) :
    (c.content k).length ≤ c.added.length :=
  ((h.holdsAt k).nodup.subperm (h.added k)).length_le

omit [DecidableEq N] in
theorem Represents.notMem_of_mem (h : Represents s c) {k k' : Option ℕ} {node : N} (hne : k ≠ k')
    (hnode : node ∈ c.content k) : node ∉ c.content k' :=
  fun hnode' => hne (h.owned node k k' hnode hnode')

omit [DecidableEq N] in
theorem Represents.nodup_append (h : Represents s c) {k k' : Option ℕ} (hne : k ≠ k') :
    (c.content k ++ c.content k').Nodup := by
  refine (h.holdsAt k).nodup.append (h.holdsAt k').nodup ?_
  intro node hnode hnode'
  exact hne (h.owned node k k' hnode hnode')

omit [DecidableEq N] in
/-- One container changes, and the others keep their pointers. The nodes that are new to it were in
no container. -/
theorem Represents.set (h : Represents s c) {k : Option ℕ} {l : List N} {c' : Contents N}
    (hcontent : c'.content = Function.update c.content k l) (hholds : s'.HoldsAt k l)
    (hframe : ∀ k' ≠ k, s'.HoldsAt k' (c.content k'))
    (hnew : ∀ node ∈ l, node ∈ c.content k ∨ ∀ k', node ∉ c.content k')
    (hadded : ∀ node ∈ l, node ∈ c'.added) (hkept : ∀ node ∈ c.added, node ∈ c'.added)
    (hpushed : s'.pushed = c'.pushed) (hbatches : s'.batches = c'.batches) :
    Represents s' c' := by
  have hself : c'.content k = l := by rw [hcontent, Function.update_self]
  have hother : ∀ k' ≠ k, c'.content k' = c.content k' := by
    intro k' hk'
    rw [hcontent, Function.update_of_ne hk']
  refine ⟨?_, ?_, ?_, hpushed, hbatches⟩
  · intro k'
    by_cases hk' : k' = k
    · rw [hk', hself]
      exact hholds
    · rw [hother k' hk']
      exact hframe k' hk'
  · intro node k₁ k₂ h₁ h₂
    by_cases hk₁ : k₁ = k
    · by_cases hk₂ : k₂ = k
      · rw [hk₁, hk₂]
      · rw [hk₁, hself] at h₁
        rw [hother k₂ hk₂] at h₂
        rcases hnew node h₁ with hmem | hfree
        · exact absurd (h.owned node k k₂ hmem h₂).symm hk₂
        · exact absurd h₂ (hfree k₂)
    · rw [hother k₁ hk₁] at h₁
      by_cases hk₂ : k₂ = k
      · rw [hk₂, hself] at h₂
        rcases hnew node h₂ with hmem | hfree
        · exact absurd (h.owned node k₁ k h₁ hmem) hk₁
        · exact absurd h₁ (hfree k₁)
      · rw [hother k₂ hk₂] at h₂
        exact h.owned node k₁ k₂ h₁ h₂
  · intro k' node hnode
    by_cases hk' : k' = k
    · rw [hk', hself] at hnode
      exact hadded node hnode
    · rw [hother k' hk'] at hnode
      exact hkept node (h.added k' node hnode)

omit [DecidableEq N] in
theorem Represents.moveAll (h : Represents s c) {k k' : Option ℕ} {c' : Contents N}
    (hne : k ≠ k') (hcontent : c'.content = (c.moveAll k k').content)
    (hholds : s'.HoldsAt k (c.content k ++ c.content k')) (hempty : s'.HoldsAt k' [])
    (hframe : ∀ i, i ≠ k → i ≠ k' → s'.HoldsAt i (c.content i)) (hadded : c'.added = c.added)
    (hpushed : s'.pushed = c'.pushed) (hbatches : s'.batches = c'.batches) :
    Represents s' c' := by
  have hk : c'.content k = c.content k ++ c.content k' := by
    simp [hcontent, Contents.moveAll, Contents.set, Function.update_of_ne hne]
  have hk' : c'.content k' = [] := by
    simp [hcontent, Contents.moveAll, Contents.set]
  have hother : ∀ i, i ≠ k → i ≠ k' → c'.content i = c.content i := by
    intro i hi hi'
    simp [hcontent, Contents.moveAll, Contents.set, Function.update_of_ne hi,
      Function.update_of_ne hi']
  -- Every node comes from some container that holds it in the old contents.
  have hold : ∀ i node, node ∈ c'.content i → node ∈ c.content i ∨
      i = k ∧ node ∈ c.content k' := by
    intro i node hnode
    by_cases hi : i = k
    · rw [hi, hk] at hnode
      rcases List.mem_append.1 hnode with hnode | hnode
      · exact .inl (hi ▸ hnode)
      · exact .inr ⟨hi, hnode⟩
    · by_cases hi' : i = k'
      · rw [hi', hk'] at hnode
        cases hnode
      · rw [hother i hi hi'] at hnode
        exact .inl hnode
  have hgone : ∀ i node, node ∈ c'.content i → i ≠ k' := by
    rintro i node hnode rfl
    rw [hk'] at hnode
    cases hnode
  refine ⟨?_, ?_, ?_, hpushed, hbatches⟩
  · intro i
    by_cases hi : i = k
    · rw [hi, hk]
      exact hholds
    · by_cases hi' : i = k'
      · rw [hi', hk']
        exact hempty
      · rw [hother i hi hi']
        exact hframe i hi hi'
  · intro node i j hi hj
    rcases hold i node hi with hi' | ⟨rfl, hi'⟩
    · rcases hold j node hj with hj' | ⟨rfl, hj'⟩
      · exact h.owned node i j hi' hj'
      · exact absurd (h.owned node i k' hi' hj') (hgone i node hi)
    · rcases hold j node hj with hj' | ⟨rfl, hj'⟩
      · exact absurd (h.owned node j k' hj' hi') (hgone j node hj)
      · rfl
  · intro i node hnode
    rw [hadded]
    rcases hold i node hnode with hnode | ⟨-, hnode⟩
    · exact h.added i node hnode
    · exact h.added k' node hnode

omit [DecidableEq N] in
theorem Represents.setList (h : Represents s c) {i : ℕ} {l : List N} {c' : Contents N}
    {result : Memory N × IntrusiveList N} (node : Option N)
    (hcontent : c'.content = Function.update c.content (some i) l)
    (hholds : IntrusiveList.Holds result.1 result.2 l)
    (hframe : ∀ a ∉ c.content (some i), some a ≠ node → result.1 a = s.next a)
    (hfree : ∀ a, node = some a → ∀ k, a ∉ c.content k)
    (hnew : ∀ a ∈ l, a ∈ c.content (some i) ∨ node = some a)
    (hadded : ∀ a ∈ l, a ∈ c'.added) (hkept : ∀ a ∈ c.added, a ∈ c'.added)
    (hpushed : c'.pushed = c.pushed) (hbatches : c'.batches = c.batches) :
    Represents (s.setList i result) c' := by
  refine h.set hcontent ?_ ?_ ?_ hadded hkept (h.pushed_eq.trans hpushed.symm)
    (h.batches_eq.trans hbatches.symm)
  · change IntrusiveList.Holds result.1 (Function.update s.lists i result.2 i) l
    rwa [Function.update_self]
  · intro k hk
    refine (h.holdsAt k).frame ?_ (fun _ => rfl) ?_
    · intro a ha
      refine hframe a (h.notMem_of_mem hk ha) ?_
      intro heq
      exact hfree a heq.symm k ha
    · rintro j rfl
      exact Function.update_of_ne (fun heq => hk (congrArg some heq)) _ _
  · intro a ha
    rcases hnew a ha with hmem | heq
    · exact .inl hmem
    · exact .inr (hfree a heq)

omit [DecidableEq N] in
theorem Represents.mem_added_append (h : Represents s c) {k : Option ℕ} {node a : N}
    (ha : a ∈ c.content k ++ [node]) : a ∈ c.added ++ [node] := by
  rcases List.mem_append.1 ha with ha | ha
  · exact List.mem_append_left _ (h.added k a ha)
  · exact List.mem_append_right _ ha

theorem Represents.pushBack (h : Represents s c) {i : ℕ} {node : N}
    (hfree : ∀ k, node ∉ c.content k) :
    ∃ s', s.step fuel (.pushBack i node) = some s' ∧
      Represents s' (c.step (.pushBack i node)) := by
  obtain ⟨next', list', heq, hholds, hframe⟩ :=
    IntrusiveList.Holds.pushBack (h.holdsAt (some i)) (hfree (some i))
  refine ⟨s.setList i (next', list'), by rw [QueueState.step, heq]; rfl, ?_⟩
  refine h.setList (some node) rfl hholds ?_ ?_ ?_ ?_ ?_ rfl rfl
  · intro a ha hne
    exact hframe a ha fun heq => hne (congrArg some heq)
  · rintro a heq
    exact Option.some.inj heq ▸ hfree
  · intro a ha
    rcases List.mem_append.1 ha with ha | ha
    · exact .inl ha
    · exact .inr (congrArg some (List.mem_singleton.1 ha).symm)
  · intro a ha
    exact h.mem_added_append ha
  · intro a ha
    exact List.mem_append_left _ ha

theorem Represents.pushFront (h : Represents s c) {i : ℕ} {node : N}
    (hfree : ∀ k, node ∉ c.content k) :
    ∃ s', s.step fuel (.pushFront i node) = some s' ∧
      Represents s' (c.step (.pushFront i node)) := by
  obtain ⟨hholds, hframe⟩ :=
    IntrusiveList.Holds.pushFront (h.holdsAt (some i)) (hfree (some i))
  refine ⟨_, rfl, ?_⟩
  refine h.setList (some node) rfl hholds ?_ ?_ ?_ ?_ ?_ rfl rfl
  · intro a _ hne
    exact hframe a fun heq => hne (congrArg some heq)
  · rintro a heq
    exact Option.some.inj heq ▸ hfree
  · intro a ha
    rcases List.mem_cons.1 ha with rfl | ha
    · exact .inr rfl
    · exact .inl ha
  · intro a ha
    rcases List.mem_cons.1 ha with rfl | ha
    · exact List.mem_append_right _ (List.mem_singleton_self _)
    · exact List.mem_append_left _ (h.added _ a ha)
  · intro a ha
    exact List.mem_append_left _ ha

theorem Represents.popFront (h : Represents s c) {i : ℕ} :
    ∃ s', s.step fuel (.popFront i) = some s' ∧ Represents s' (c.step (.popFront i)) := by
  have hlist := h.holdsAt (some i)
  have hpop : IntrusiveList.Holds ((s.lists i).popFront s.next).2.1
        ((s.lists i).popFront s.next).2.2 (c.content (some i)).tail ∧
      ∀ a ∉ c.content (some i), ((s.lists i).popFront s.next).2.1 a = s.next a := by
    cases hl : c.content (some i) with
    | nil =>
        rw [hl] at hlist
        rw [IntrusiveList.Holds.popFront_nil hlist]
        exact ⟨hlist, fun a _ => rfl⟩
    | cons node l =>
        rw [hl] at hlist
        obtain ⟨next', list', heq, hholds, hframe⟩ := IntrusiveList.Holds.popFront_cons hlist
        rw [heq]
        exact ⟨hholds, fun a ha => hframe a fun heq => ha (heq ▸ List.mem_cons_self)⟩
  refine ⟨_, rfl, ?_⟩
  refine h.setList none rfl hpop.1 (fun a ha _ => hpop.2 a ha) ?_ ?_ ?_ (fun a ha => ha)
    rfl rfl
  · intro a heq
    cases heq
  · intro a ha
    exact .inl (List.mem_of_mem_tail ha)
  · intro a ha
    exact h.added _ a (List.mem_of_mem_tail ha)

theorem Represents.push (h : Represents s c) {task : N} (hfree : ∀ k, task ∉ c.content k) :
    ∃ s', s.step fuel (.push task) = some s' ∧ Represents s' (c.step (.push task)) := by
  obtain ⟨hstack, hnodup⟩ := h.holdsAt none
  refine ⟨_, rfl, ?_⟩
  refine h.set (k := none) rfl ⟨?_, ?_⟩ ?_ ?_ ?_ ?_ ?_ h.batches_eq
  · rw [List.reverse_append]
    exact hstack.cons (fun hmem => hfree none (List.mem_reverse.1 hmem))
  · rw [List.nodup_append_comm]
    exact List.nodup_cons.2 ⟨hfree none, hnodup⟩
  · intro k hk
    refine (h.holdsAt k).frame ?_ (fun heq => absurd heq hk) fun _ _ => rfl
    intro a ha
    apply Function.update_of_ne
    rintro rfl
    exact hfree k ha
  · intro a ha
    rcases List.mem_append.1 ha with ha | ha
    · exact .inl ha
    · exact .inr (List.mem_singleton.1 ha ▸ hfree)
  · intro a ha
    exact h.mem_added_append ha
  · intro a ha
    exact List.mem_append_left _ ha
  · change s.pushed ++ [task] = c.pushed ++ [task]
    rw [h.pushed_eq]

omit [DecidableEq N] in
theorem Contents.moveAll_of_nil {k k' : Option ℕ} (h : c.content k' = []) :
    c.moveAll k k' = c := by
  have hcontent : (c.moveAll k k').content = c.content := by
    funext i
    rw [moveAll, set, set, h, List.append_nil]
    dsimp only
    by_cases hi : i = k'
    · rw [hi, Function.update_self, h]
    · rw [Function.update_of_ne hi, Function.update_eq_self]
  calc c.moveAll k k' = { c with content := (c.moveAll k k').content } := rfl
    _ = c := by rw [hcontent]

omit [DecidableEq N] in
theorem Represents.clear (h : Represents s c) (i : ℕ) :
    Represents { s with lists := Function.update s.lists i {} } (c.set (some i) []) := by
  refine h.set rfl ?_ ?_ ?_ ?_ (fun a ha => ha) h.pushed_eq h.batches_eq
  · change IntrusiveList.Holds s.next (Function.update s.lists i {} i) []
    rw [Function.update_self]
    exact IntrusiveList.holds_empty _
  · intro k hk
    refine (h.holdsAt k).frame (fun _ _ => rfl) (fun _ => rfl) ?_
    rintro j rfl
    exact Function.update_of_ne (fun heq => hk (congrArg some heq)) _ _
  · intro a ha
    cases ha
  · intro a ha
    cases ha

theorem Represents.insert (h : Represents s c) {i j : ℕ} :
    ∃ s', s.step fuel (.insert i j) = some s' ∧ Represents s' (c.step (.insert i j)) := by
  have hi : IntrusiveList.Holds s.next (s.lists i) (c.content (some i)) := h.holdsAt (some i)
  have hj : IntrusiveList.Holds s.next (s.lists j) (c.content (some j)) := h.holdsAt (some j)
  by_cases hnil : c.content (some j) = []
  · refine ⟨s, ?_, ?_⟩
    · have hhead := hj.chain.head_eq
      rw [hnil] at hhead
      rw [QueueState.step, QueueState.insert, hhead]
      rfl
    · rw [Contents.step, Contents.moveAll_of_nil hnil]
      exact h
  · have hhead : (s.lists j).head.isNone = false := by
      rw [hj.chain.head_eq]
      simpa using hnil
    by_cases hij : i = j
    · -- A list that is inserted into itself becomes a cycle, and is then cleared.
      subst hij
      obtain ⟨tail, htail⟩ := Option.isSome_iff_exists.1
        (show (c.content (some i)).getLast?.isSome by simpa using hnil)
      obtain ⟨head, hhead'⟩ := Option.isSome_iff_exists.1
        (Option.isNone_eq_false_iff.1 hhead)
      have heq : (s.lists i).insert s.next (s.lists i) =
          some (Function.update s.next tail (s.lists i).head,
            ⟨(s.lists i).head, (s.lists i).tail, (s.lists i).size + (s.lists i).size⟩) := by
        rw [IntrusiveList.insert, hhead', hi.tail_eq, htail]
      refine ⟨_, by rw [QueueState.step, QueueState.insert, hhead, heq]; rfl, ?_⟩
      refine h.set (k := some i) (l := []) ?_ ?_ ?_ ?_ ?_ (fun a ha => ha) h.pushed_eq h.batches_eq
      · exact Function.update_idem ..
      · change IntrusiveList.Holds _ (Function.update (Function.update s.lists i _) i {} i) []
        rw [Function.update_self]
        exact IntrusiveList.holds_empty _
      · intro k hk
        refine (h.holdsAt k).frame ?_ (fun _ => rfl) ?_
        · intro a ha
          apply Function.update_of_ne
          rintro rfl
          exact h.notMem_of_mem hk ha (List.mem_of_getLast? htail)
        · rintro m rfl
          have hmi : m ≠ i := fun heq => hk (congrArg some heq)
          change Function.update (Function.update s.lists i _) i {} m = s.lists m
          rw [Function.update_of_ne hmi, Function.update_of_ne hmi]
      · intro a ha
        cases ha
      · intro a ha
        cases ha
    · have hne : (some i : Option ℕ) ≠ some j := fun heq => hij (Option.some.inj heq)
      obtain ⟨next', list', heq, hholds, hframe⟩ := hi.insert hj (h.nodup_append hne)
      refine ⟨_, by rw [QueueState.step, QueueState.insert, hhead, heq]; rfl, ?_⟩
      refine h.moveAll hne rfl ?_ ?_ ?_ rfl h.pushed_eq h.batches_eq
      · change IntrusiveList.Holds next'
          (Function.update (Function.update s.lists i list') j {} i) _
        rwa [Function.update_of_ne hij, Function.update_self]
      · change IntrusiveList.Holds next'
          (Function.update (Function.update s.lists i list') j {} j) _
        rw [Function.update_self]
        exact IntrusiveList.holds_empty _
      · intro k hki hkj
        refine (h.holdsAt k).frame ?_ (fun _ => rfl) ?_
        · intro a ha
          exact hframe a (h.notMem_of_mem hki ha)
        · rintro m rfl
          change Function.update (Function.update s.lists i list') j {} m = s.lists m
          rw [Function.update_of_ne fun heq => hkj (congrArg some heq),
            Function.update_of_ne fun heq => hki (congrArg some heq)]

theorem Represents.move (h : Represents s c) {i j : ℕ} :
    ∃ s', s.step fuel (.move i j) = some s' ∧ Represents s' (c.step (.move i j)) := by
  have hclear := h.clear i
  refine ⟨_, rfl, ?_⟩
  by_cases hij : i = j
  · subst hij
    have hnil : (c.set (some i) []).content (some i) = [] := by simp [Contents.set]
    rw [Contents.step, Contents.moveAll_of_nil hnil, QueueState.move, Function.update_idem]
    exact hclear
  · have hne : (some i : Option ℕ) ≠ some j := fun heq => hij (Option.some.inj heq)
    refine hclear.moveAll hne rfl ?_ ?_ ?_ rfl h.pushed_eq h.batches_eq
    · change IntrusiveList.Holds s.next
        (Function.update (Function.update s.lists i (s.lists j)) j {} i) _
      rw [Function.update_of_ne hij, Function.update_self]
      have hlist : IntrusiveList.Holds s.next (s.lists j) (c.content (some j)) :=
        h.holdsAt (some j)
      simpa [Contents.set, Function.update_of_ne hne.symm] using hlist
    · change IntrusiveList.Holds s.next
        (Function.update (Function.update s.lists i (s.lists j)) j {} j) _
      rw [Function.update_self]
      exact IntrusiveList.holds_empty _
    · intro k hki hkj
      refine (hclear.holdsAt k).frame (fun _ _ => rfl) (fun _ => rfl) ?_
      rintro m rfl
      change Function.update (Function.update s.lists i (s.lists j)) j {} m =
        Function.update s.lists i {} m
      have hmi : m ≠ i := fun heq => hki (congrArg some heq)
      rw [Function.update_of_ne fun heq => hkj (congrArg some heq), Function.update_of_ne hmi,
        Function.update_of_ne hmi]

theorem Represents.pushList (h : Represents s c) (hfuel : c.added.length < fuel) {i : ℕ} :
    ∃ s', s.step fuel (.pushList i) = some s' ∧ Represents s' (c.step (.pushList i)) := by
  have hi : IntrusiveList.Holds s.next (s.lists i) (c.content (some i)) := h.holdsAt (some i)
  have hlength := h.length_le (some i)
  obtain ⟨hstack, hnodup⟩ := h.holdsAt none
  have hne : (none : Option ℕ) ≠ some i := nofun
  -- The list is reversed, then put on the stack.
  obtain ⟨next₁, reversed, hreverse, hreversed, hframe₁⟩ :=
    hi.reverseList (IntrusiveList.holds_empty s.next)
      (by rw [List.append_nil]; exact hi.nodup) (lt_of_le_of_lt hlength hfuel)
  rw [List.append_nil] at hreversed
  have hstack₁ : Chain next₁ s.top (c.content none).reverse := by
    refine hstack.congr fun a ha => hframe₁ a ?_
    exact h.notMem_of_mem hne (List.mem_reverse.1 ha)
  have hnodup₁ : ((c.content (some i)).reverse ++ (c.content none).reverse).Nodup := by
    rw [← List.reverse_append, List.nodup_reverse]
    exact h.nodup_append hne
  obtain ⟨next₂, top, hpush, hchain, hframe₂⟩ := hreversed.stackPushList hstack₁ hnodup₁
  have hwalk := hi.chain.walk_eq (lt_of_le_of_lt hlength hfuel)
  refine ⟨_, by
    simp only [QueueState.step, QueueState.pushList, hreverse, hpush, Option.bind_eq_bind,
      Option.bind_some]
    rfl, ?_⟩
  refine h.moveAll hne rfl ⟨?_, h.nodup_append hne⟩ ?_ ?_ rfl ?_ h.batches_eq
  · rw [List.reverse_append]
    exact hchain
  · change IntrusiveList.Holds next₂ (Function.update s.lists i {} i) []
    rw [Function.update_self]
    exact IntrusiveList.holds_empty _
  · intro k hknone hki
    refine (h.holdsAt k).frame ?_ (fun heq => absurd heq hknone) ?_
    · intro a ha
      have hnot := h.notMem_of_mem hki ha
      change next₂ a = s.next a
      rw [hframe₂ a fun hmem => hnot (List.mem_reverse.1 hmem), hframe₁ a hnot]
    · rintro m rfl
      exact Function.update_of_ne (fun heq => hki (congrArg some heq)) _ _
  · change s.pushed ++ walk fuel s.next (s.lists i).head = c.pushed ++ c.content (some i)
    rw [hwalk, h.pushed_eq]

theorem Represents.tryPopAll (h : Represents s c) (hfuel : c.added.length < fuel) {i : ℕ} :
    ∃ s', s.step fuel (.tryPopAll i) = some s' ∧ Represents s' (c.step (.tryPopAll i)) := by
  obtain ⟨hstack, hnodup⟩ := h.holdsAt none
  have hlength := h.length_le none
  have hclear := h.clear i
  have hne : (some i : Option ℕ) ≠ none := nofun
  have hcontent : (c.set (some i) []).content none = c.content none := by simp [Contents.set]
  obtain ⟨next', list, hcreate, hholds, hframe⟩ :=
    (IntrusiveList.holds_empty s.next).createReverseList hstack
      (by rw [List.append_nil]; exact List.nodup_reverse.2 hnodup)
      (by rw [List.length_reverse]; exact lt_of_le_of_lt hlength hfuel)
  rw [List.append_nil, List.reverse_reverse] at hholds
  have hbatch : s.popBatch fuel = some (next', list) := by
    rw [QueueState.popBatch]
    split_ifs with htop
    · rw [Option.isNone_iff_eq_none.1 htop] at hcreate
      cases fuel with
      | zero => omega
      | succ fuel => exact hcreate
    · exact hcreate
  have hwalk := hholds.chain.walk_eq (lt_of_le_of_lt hlength hfuel)
  refine ⟨_, by rw [QueueState.step, QueueState.tryPopAll, hbatch]; rfl, ?_⟩
  refine hclear.moveAll hne rfl ?_ ⟨rfl, List.nodup_nil⟩ ?_ rfl h.pushed_eq ?_
  · change IntrusiveList.Holds next' (Function.update s.lists i list i) _
    rw [Function.update_self, hcontent]
    simpa [Contents.set] using hholds
  · intro k hki hknone
    refine (hclear.holdsAt k).frame ?_ (fun heq => absurd heq hknone) ?_
    · intro a ha
      have hnot := hclear.notMem_of_mem hknone ha
      rw [hcontent] at hnot
      exact hframe a fun hmem => hnot (List.mem_reverse.1 hmem)
    · rintro m rfl
      have hmi : m ≠ i := fun heq => hki (congrArg some heq)
      change Function.update s.lists i list m = Function.update s.lists i {} m
      rw [Function.update_of_ne hmi, Function.update_of_ne hmi]
  · change s.batches ++ [walk fuel next' list.head] = c.batches ++ [c.content none]
    rw [hwalk, h.batches_eq]

theorem Represents.step (h : Represents s c) {event : QueueEvent N} (hallowed : c.Allowed event)
    (hfuel : c.added.length < fuel) :
    ∃ s', s.step fuel event = some s' ∧ Represents s' (c.step event) := by
  cases event with
  | pushBack i node => exact h.pushBack hallowed
  | pushFront i node => exact h.pushFront hallowed
  | popFront i => exact h.popFront
  | insert i j => exact h.insert
  | move i j => exact h.move
  | push task => exact h.push hallowed
  | pushList i => exact h.pushList hfuel
  | tryPopAll i => exact h.tryPopAll hfuel

omit [DecidableEq N] in
theorem Contents.length_added_step (c : Contents N) (event : QueueEvent N) :
    (c.step event).added.length ≤ c.added.length + 1 := by
  cases event with
  | pushBack i node => simp [step, add, set]
  | pushFront i node => simp [step, add, set]
  | popFront i => simp [step, set]
  | insert i j => simp [step, moveAll, set]
  | move i j => simp [step, moveAll, set]
  | push task => simp [step, add, set]
  | pushList i => simp [step, moveAll, set]
  | tryPopAll i => simp [step, moveAll, set]

theorem Represents.run (h : Represents s c) {events : List (QueueEvent N)}
    (hlegal : Contents.Legal c events) (hfuel : c.added.length + events.length < fuel) :
    ∃ s', run (QueueState.step fuel) s events = some s' ∧
      Represents s' (events.foldl Contents.step c) := by
  induction events generalizing s c with
  | nil => exact ⟨s, rfl, h⟩
  | cons event events ih =>
      rw [List.length_cons] at hfuel
      have hadded := c.length_added_step event
      obtain ⟨middle, hstep, hmiddle⟩ := h.step hlegal.1 (by omega : c.added.length < fuel)
      obtain ⟨s', hrun, hrepresents⟩ := ih hmiddle hlegal.2 (by omega)
      exact ⟨s', by rw [TransitionSystem.run, hstep]; exact hrun, hrepresents⟩

omit [DecidableEq N] in
theorem represents_initial : Represents ({} : QueueState N) {} := by
  refine ⟨?_, ?_, ?_, rfl, rfl⟩
  · intro k
    cases k with
    | none => exact ⟨rfl, List.nodup_nil⟩
    | some i => exact IntrusiveList.holds_empty _
  · intro node k k' hnode
    cases hnode
  · intro k node hnode
    cases hnode

omit [DecidableEq N] in
theorem Contents.fifo_step {event : QueueEvent N}
    (h : c.batches.flatten ++ c.content none = c.pushed) :
    (c.step event).batches.flatten ++ (c.step event).content none = (c.step event).pushed := by
  cases event with
  | push task => simp [step, add, set, ← h]
  | pushList i => simp [step, moveAll, set, ← h]
  | tryPopAll i => simpa [step, moveAll, set] using h
  | pushBack i node => simpa [step, add, set] using h
  | pushFront i node => simpa [step, add, set] using h
  | popFront i => simpa [step, set] using h
  | insert i j => simpa [step, moveAll, set] using h
  | move i j => simpa [step, moveAll, set] using h

omit [DecidableEq N] in
theorem Contents.fifo {events : List (QueueEvent N)}
    (h : c.batches.flatten ++ c.content none = c.pushed) :
    (events.foldl Contents.step c).batches.flatten ++
        (events.foldl Contents.step c).content none =
      (events.foldl Contents.step c).pushed := by
  induction events generalizing c with
  | nil => exact h
  | cons event events ih => exact ih (Contents.fifo_step h)

/-- A list whose size and tail are those of its nodes, and that yields each of them once. -/
structure WellFormed (fuel : ℕ) (next : Memory N) (list : IntrusiveList N) : Prop where
  size_eq : list.size = (walk fuel next list.head).length
  tail_eq : list.tail = (walk fuel next list.head).getLast?
  popAll_eq : list.popAll fuel next = some (walk fuel next list.head)
  nodup : (walk fuel next list.head).Nodup

/-- Every legal sequence of operations ends; the batches and then the rest of the stack, from its
bottom, are what was pushed, and all lists are well formed, those that were returned among them. -/
theorem queue_is_fifo {events : List (QueueEvent N)} (hlegal : Contents.Legal {} events)
    {fuel : ℕ} (hfuel : events.length < fuel) :
    ∃ s, run (QueueState.step fuel) {} events = some s ∧
      s.batches.flatten ++ (walk fuel s.next s.top).reverse = s.pushed ∧
      ∀ i, walk fuel s.next (s.lists i).head =
          (events.foldl Contents.step {}).content (some i) ∧
        WellFormed fuel s.next (s.lists i) := by
  obtain ⟨s, hrun, h⟩ := represents_initial.run hlegal (by simpa using hfuel)
  have hadded : (events.foldl Contents.step ({} : Contents N)).added.length ≤ events.length := by
    suffices hle : ∀ c : Contents N,
        (events.foldl Contents.step c).added.length ≤ c.added.length + events.length by
      simpa using hle {}
    clear hlegal hfuel hrun h
    induction events with
    | nil =>
        intro c
        exact le_rfl
    | cons event events ih =>
        intro c
        have hstep := c.length_added_step event
        have hrest := ih (c.step event)
        rw [List.foldl_cons, List.length_cons]
        omega
  have hlt : ∀ k, ((events.foldl Contents.step ({} : Contents N)).content k).length < fuel :=
    fun k => lt_of_le_of_lt ((h.length_le k).trans hadded) hfuel
  refine ⟨s, hrun, ?_, ?_⟩
  · obtain ⟨hstack, -⟩ := h.holdsAt none
    rw [hstack.walk_eq (by rw [List.length_reverse]; exact hlt none), List.reverse_reverse,
      h.pushed_eq, h.batches_eq]
    exact Contents.fifo rfl
  · intro i
    have hlist : IntrusiveList.Holds s.next (s.lists i) _ := h.holdsAt (some i)
    have hwalk := hlist.chain.walk_eq (hlt (some i))
    refine ⟨hwalk, ?_, ?_, ?_, ?_⟩
    · rw [hwalk, hlist.size_eq]
    · rw [hwalk, hlist.tail_eq]
    · rw [hwalk]
      exact hlist.popAll_eq (hlt (some i))
    · rw [hwalk]
      exact hlist.nodup

/-- A list is built from both ends and pushed between two tasks. The batch is taken, its first node
is popped and the rest is pushed again. -/
theorem queue_is_fifo_repush :
    ∃ s, run (QueueState.step 9) ({} : QueueState ℕ) [.push 1, .pushBack 0 3, .pushFront 0 2,
        .pushList 0, .push 4, .tryPopAll 1, .popFront 1, .pushList 1] = some s ∧
      s.batches.flatten ++ (walk 9 s.next s.top).reverse = s.pushed := by
  have hlegal : Contents.Legal ({} : Contents ℕ) [.push 1, .pushBack 0 3, .pushFront 0 2,
      .pushList 0, .push 4, .tryPopAll 1, .popFront 1, .pushList 1] := by
    refine ⟨fun k => List.not_mem_nil, ?_, ?_, trivial, ?_, trivial, trivial, trivial, trivial⟩ <;>
      intro k <;>
      simp only [Contents.step, Contents.set, Contents.add, Contents.moveAll,
        Function.update_apply] <;>
      split_ifs <;> simp_all
  obtain ⟨s, hrun, hfifo, -⟩ := queue_is_fifo hlegal (by decide : _ < 9)
  exact ⟨s, hrun, hfifo⟩

end BroadcastService.Tasks

import BroadcastService.PointerChain

/-!
# Intrusive lists

`util/instrusive_list.hpp`. The nodes carry the pointers of the lists, so an operation changes the
memory and a list. `Holds next list l` says that a list is well formed and holds the nodes `l`;
every operation has one lemma that says what the list holds afterwards and which pointers it wrote.

A result of `none` stands for access through a null pointer.
-/

namespace BroadcastService.Tasks
open PointerChain

variable {N : Type*} [DecidableEq N]

abbrev Memory (N : Type*) := N → Option N

structure IntrusiveList (N : Type*) where
  head : Option N := none
  tail : Option N := none
  size : ℕ := 0
  deriving DecidableEq

namespace IntrusiveList

/-- `Insert`, up to the `Clear` of the other list. -/
def insert (next : Memory N) (list other : IntrusiveList N) :
    Option (Memory N × IntrusiveList N) :=
  match other.head, list.head, list.tail with
  | none, _, _ => some (next, list)
  | some _, none, _ => some (next, other)
  | some _, some _, some tail =>
      some (Function.update next tail other.head,
        ⟨list.head, other.tail, list.size + other.size⟩)
  | some _, some _, none => none

def pushBack (next : Memory N) (list : IntrusiveList N) (node : N) :
    Option (Memory N × IntrusiveList N) :=
  let next := Function.update next node none
  match list.head, list.tail with
  | none, _ => some (next, ⟨some node, some node, list.size + 1⟩)
  | some _, some tail =>
      some (Function.update next tail (some node), ⟨list.head, some node, list.size + 1⟩)
  | some _, none => none

def pushFront (next : Memory N) (list : IntrusiveList N) (node : N) :
    Memory N × IntrusiveList N :=
  match list.head with
  | none => (Function.update next node none, ⟨some node, some node, list.size + 1⟩)
  | some head => (Function.update next node (some head), ⟨some node, list.tail, list.size + 1⟩)

def popFront (next : Memory N) (list : IntrusiveList N) :
    Option N × Memory N × IntrusiveList N :=
  match list.head with
  | none => (none, next, list)
  | some head =>
      (some head, Function.update next head none,
        if list.head ≠ list.tail then ⟨next head, list.tail, list.size - 1⟩
        else ⟨none, none, list.size - 1⟩)

def popAll : ℕ → Memory N → IntrusiveList N → Option (List N)
  | 0, _, _ => none
  | fuel + 1, next, list =>
      match list.popFront next with
      | (none, _, _) => some []
      | (some node, next, list) => (popAll fuel next list).map (node :: ·)

structure Holds (next : Memory N) (list : IntrusiveList N) (l : List N) : Prop where
  chain : Chain next list.head l
  tail_eq : list.tail = l.getLast?
  size_eq : list.size = l.length
  nodup : l.Nodup

variable {next next' : Memory N} {list list' other : IntrusiveList N} {l r : List N} {node : N}

omit [DecidableEq N] in
theorem holds_empty (next : Memory N) : Holds next ({} : IntrusiveList N) [] :=
  ⟨rfl, rfl, rfl, List.nodup_nil⟩

omit [DecidableEq N] in
theorem Holds.congr (h : Holds next list l) (heq : ∀ a ∈ l, next' a = next a) :
    Holds next' list l :=
  ⟨h.chain.congr heq, h.tail_eq, h.size_eq, h.nodup⟩

theorem Holds.pushFront (h : Holds next list l) (hnode : node ∉ l) :
    Holds (list.pushFront next node).1 (list.pushFront next node).2 (node :: l) ∧
      ∀ a, a ≠ node → (list.pushFront next node).1 a = next a := by
  have hhead := h.chain.head_eq
  have hchain := h.chain.cons hnode
  have hnodup := List.nodup_cons.2 ⟨hnode, h.nodup⟩
  have hsize := h.size_eq
  rw [IntrusiveList.pushFront]
  cases l with
  | nil =>
      rw [List.head?_nil] at hhead
      rw [hhead] at hchain ⊢
      refine ⟨⟨hchain, rfl, by rw [hsize]; rfl, hnodup⟩, ?_⟩
      intro a ha
      exact Function.update_of_ne ha _ _
  | cons first rest =>
      rw [List.head?_cons] at hhead
      rw [hhead] at hchain ⊢
      refine ⟨⟨hchain, ?_, by rw [hsize]; rfl, hnodup⟩, ?_⟩
      · rw [List.getLast?_cons_cons]
        exact h.tail_eq
      · intro a ha
        exact Function.update_of_ne ha _ _

theorem Holds.insert (h : Holds next list l) (h' : Holds next other r)
    (hnodup : (l ++ r).Nodup) :
    ∃ next' list', list.insert next other = some (next', list') ∧ Holds next' list' (l ++ r) ∧
      ∀ a ∉ l, next' a = next a := by
  have hhead := h.chain.head_eq
  have hother := h'.chain.head_eq
  rw [IntrusiveList.insert]
  cases r with
  | nil =>
      rw [hother]
      refine ⟨next, list, rfl, ?_, fun a _ => rfl⟩
      rwa [List.append_nil]
  | cons first rest =>
      cases l with
      | nil =>
          rw [hother, hhead]
          exact ⟨next, other, rfl, h', fun a _ => rfl⟩
      | cons b l =>
          obtain ⟨tail, htail⟩ := Option.isSome_iff_exists.1
            (show (b :: l).getLast?.isSome by simp)
          have hmem := List.mem_of_getLast? htail
          have hchain := h.chain.append h'.chain htail hnodup
          rw [hother, hhead] at hchain
          rw [hother, hhead, h.tail_eq, htail]
          refine ⟨_, _, rfl, ⟨hchain, ?_, ?_, hnodup⟩, ?_⟩
          · rw [List.getLast?_append_cons]
            exact h'.tail_eq
          · rw [List.length_append, ← h.size_eq, ← h'.size_eq]
          · intro a ha
            apply Function.update_of_ne
            rintro rfl
            exact ha hmem

theorem Holds.pushBack (h : Holds next list l) (hnode : node ∉ l) :
    ∃ next' list', list.pushBack next node = some (next', list') ∧
      Holds next' list' (l ++ [node]) ∧ ∀ a ∉ l, a ≠ node → next' a = next a := by
  have hhead := h.chain.head_eq
  have hnodup : (l ++ [node]).Nodup := by
    rw [List.nodup_append_comm]
    exact List.nodup_cons.2 ⟨hnode, h.nodup⟩
  have hold : Chain (Function.update next node none) list.head l := h.chain.update hnode
  have hnew : Chain (Function.update next node none) (some node) [node] := by simp
  rw [IntrusiveList.pushBack]
  cases l with
  | nil =>
      rw [hhead]
      refine ⟨_, _, rfl, ⟨hnew, rfl, by rw [h.size_eq]; rfl, hnodup⟩, ?_⟩
      intro a _ ha
      exact Function.update_of_ne ha _ _
  | cons b l =>
      obtain ⟨tail, htail⟩ := Option.isSome_iff_exists.1
        (show (b :: l).getLast?.isSome by simp)
      have hmem := List.mem_of_getLast? htail
      have hchain := hold.append hnew htail hnodup
      rw [hhead] at hchain
      rw [hhead, h.tail_eq, htail]
      refine ⟨_, _, rfl, ⟨hchain, ?_, ?_, hnodup⟩, ?_⟩
      · rw [List.getLast?_append_cons]
        rfl
      · rw [List.length_append, ← h.size_eq]
        rfl
      · intro a hal ha
        have hne : a ≠ tail := by
          rintro rfl
          exact hal hmem
        rw [Function.update_of_ne hne, Function.update_of_ne ha]

theorem Holds.popFront_nil (h : Holds next list []) :
    list.popFront next = (none, next, list) := by
  have hhead : list.head = none := h.chain
  rw [IntrusiveList.popFront, hhead]

theorem Holds.popFront_cons (h : Holds next list (node :: l)) :
    ∃ next' list', list.popFront next = (some node, next', list') ∧ Holds next' list' l ∧
      ∀ a, a ≠ node → next' a = next a := by
  obtain ⟨hhead, hrest⟩ := h.chain
  obtain ⟨hnode, hnodup⟩ := List.nodup_cons.1 h.nodup
  have hsize := h.size_eq
  rw [List.length_cons] at hsize
  have hframe : ∀ a, a ≠ node → Function.update next node none a = next a :=
    fun a ha => Function.update_of_ne ha _ _
  rw [IntrusiveList.popFront, hhead]
  refine ⟨_, _, rfl, ?_, hframe⟩
  cases l with
  | nil =>
      rw [if_neg (by rw [h.tail_eq]; simp)]
      exact ⟨rfl, rfl, by rw [hsize]; rfl, hnodup⟩
  | cons b l =>
      have htail := h.tail_eq
      rw [List.getLast?_cons_cons] at htail
      have hne : some node ≠ list.tail := by
        rw [htail]
        intro heq
        exact hnode (List.mem_of_getLast? heq.symm)
      rw [if_pos hne]
      exact ⟨hrest.update hnode, htail, by rw [hsize]; rfl, hnodup⟩

theorem Holds.popAll_eq (h : Holds next list l) {fuel : ℕ} (hfuel : l.length < fuel) :
    list.popAll fuel next = some l := by
  induction l generalizing next list fuel with
  | nil =>
      cases fuel with
      | zero => omega
      | succ fuel => rw [popAll, h.popFront_nil]
  | cons node l ih =>
      cases fuel with
      | zero => omega
      | succ fuel =>
          obtain ⟨next', list', hpop, hholds, -⟩ := h.popFront_cons
          rw [popAll, hpop]
          dsimp only
          rw [ih hholds (by simpa using hfuel), Option.map_some]

end IntrusiveList

end BroadcastService.Tasks

import Mathlib.Data.List.Basic
import Mathlib.Tactic

/-!
# The lattice agreement application

The decision callback of `applications/lattice_agreement.hpp`. Rounds are decided in any order; the
output has one line for each round, in the order of the rounds. A decision that comes early waits in
`out_of_order_cache`.

`next_round_to_log` has 32 bits and counts the lines, so it is zero again when every round was
written. The invariant `Logged` therefore speaks of the number of lines.
-/

namespace BroadcastService.Applications

abbrev RoundID := UInt32
abbrev ProposalT := List UInt32

structure DecisionLog where
  nextRoundToLog : RoundID := 0
  outOfOrderCache : Std.HashMap RoundID ProposalT := {}
  output : List String := []

namespace DecisionLog

/-- A line of the output; every value is followed by a blank. -/
def line (proposal : ProposalT) : String :=
  String.join (proposal.map fun value => toString value ++ " ") ++ "\n"

def writeProposalToOutput (log : DecisionLog) (proposal : ProposalT) : DecisionLog :=
  { log with output := log.output ++ [line proposal] }

def writeCached (log : DecisionLog) : DecisionLog :=
  match _h : log.outOfOrderCache[log.nextRoundToLog]? with
  | none => log
  | some decidedSet =>
      { log.writeProposalToOutput decidedSet with
        nextRoundToLog := log.nextRoundToLog + 1
        outOfOrderCache := log.outOfOrderCache.erase log.nextRoundToLog }.writeCached
termination_by log.outOfOrderCache.size
decreasing_by
  have hmem : log.nextRoundToLog ∈ log.outOfOrderCache := by
    rw [Std.HashMap.mem_iff_isSome_getElem?, _h]
    rfl
  have hpos : log.outOfOrderCache.size ≠ 0 := by
    intro hzero
    have hempty : log.outOfOrderCache.isEmpty = true := by
      rw [Std.HashMap.isEmpty_eq_size_eq_zero, hzero]
      rfl
    exact Std.HashMap.isEmpty_iff_forall_not_mem.1 hempty _ hmem
  simp only [Std.HashMap.size_erase, hmem, if_true]
  omega

def callback (log : DecisionLog) (round : RoundID) (decidedSet : ProposalT) : DecisionLog :=
  if round ≠ log.nextRoundToLog then
    { log with outOfOrderCache := log.outOfOrderCache.insert round decidedSet }
  else
    let log := { log.writeProposalToOutput decidedSet with
      nextRoundToLog := log.nextRoundToLog + 1 }
    if log.outOfOrderCache.isEmpty then log else log.writeCached

def after (decisions : List (RoundID × ProposalT)) : DecisionLog :=
  decisions.foldl (fun log decision => log.callback decision.1 decision.2) {}

variable {decided : RoundID → Option ProposalT} {log : DecisionLog} {lines : ℕ}
  {round : RoundID} {decidedSet : ProposalT}

def firstDecisions (decided : RoundID → Option ProposalT) (lines : ℕ) : List ProposalT :=
  (List.range lines).map fun round => (decided (UInt32.ofNat round)).getD []

/-- The first `lines` rounds are decided and were written. -/
structure Written (decided : RoundID → Option ProposalT) (log : DecisionLog) (lines : ℕ) :
    Prop where
  next_eq : log.nextRoundToLog = UInt32.ofNat lines
  output_eq : log.output = (firstDecisions decided lines).map line
  isSome_decided : ∀ round : RoundID, round.toNat < lines → (decided round).isSome
  lines_le : lines ≤ 2 ^ 32

/-- The cache holds the decisions from round `first` on. -/
def Cached (decided : RoundID → Option ProposalT) (log : DecisionLog) (first : ℕ) : Prop :=
  ∀ round : RoundID,
    log.outOfOrderCache[round]? = if first ≤ round.toNat then decided round else none

/-- Nothing that could be written waits. -/
structure Logged (decided : RoundID → Option ProposalT) (log : DecisionLog) (lines : ℕ) :
    Prop where
  written : Written decided log lines
  cached : Cached decided log lines
  undecided : ∀ round : RoundID, round.toNat = lines → decided round = none

theorem eq_ofNat_of_toNat (h : round.toNat = lines) : round = UInt32.ofNat lines := by
  rw [← h, UInt32.ofNat_toNat]

theorem firstDecisions_succ (hround : round.toNat = lines)
    (hdecided : decided round = some decidedSet) :
    firstDecisions decided (lines + 1) = firstDecisions decided lines ++ [decidedSet] := by
  rw [eq_ofNat_of_toNat hround] at hdecided
  rw [firstDecisions, List.range_succ, List.map_append, List.map_singleton, hdecided]
  rfl

/-- Writing the next round. The two paths of the callback differ in what they do to the cache. -/
theorem Written.write (h : Written decided log lines) (hround : round.toNat = lines)
    (hdecided : decided round = some decidedSet) (cache : Std.HashMap RoundID ProposalT) :
    Written decided ⟨log.nextRoundToLog + 1, cache, log.output ++ [line decidedSet]⟩
      (lines + 1) where
  next_eq := by
    rw [h.next_eq]
    exact (UInt32.ofNat_add lines 1).symm
  output_eq := by
    rw [firstDecisions_succ hround hdecided, List.map_append, h.output_eq, List.map_singleton]
  isSome_decided := by
    intro other hother
    rcases Nat.lt_succ_iff_lt_or_eq.1 hother with hlt | heq
    · exact h.isSome_decided other hlt
    · have hsame : other = round := UInt32.toNat_inj.1 (heq.trans hround.symm)
      rw [hsame, hdecided]
      rfl
  lines_le := by
    have := round.toNat_lt
    omega

theorem Written.le_of_undecided (h : Written decided log lines) (hround : decided round = none) :
    lines ≤ round.toNat := by
  by_contra hlt
  have hsome := h.isSome_decided round (by omega)
  rw [hround] at hsome
  exact absurd hsome (by decide)

theorem Written.update (h : Written decided log lines) (hround : decided round = none) :
    Written (Function.update decided round (some decidedSet)) log lines where
  next_eq := h.next_eq
  output_eq := by
    rw [h.output_eq]
    congr 1
    apply List.map_congr_left
    intro r hr
    have hlt := List.mem_range.1 hr
    have hle := h.le_of_undecided hround
    have hne : UInt32.ofNat r ≠ round := by
      rintro rfl
      have hsize := h.lines_le
      rw [UInt32.toNat_ofNat_of_lt' (by rw [UInt32.size]; omega)] at hle
      omega
    rw [Function.update_of_ne hne]
  isSome_decided := by
    intro other hother
    have hle := h.le_of_undecided hround
    have hne : other ≠ round := by
      rintro rfl
      omega
    rw [Function.update_of_ne hne]
    exact h.isSome_decided other hother
  lines_le := h.lines_le

/-- Where the counter has wrapped the cache is empty. -/
theorem getElem_cache_next (hwritten : Written decided log lines)
    (hcached : Cached decided log lines)
    (hdecided : log.outOfOrderCache[log.nextRoundToLog]? = some decidedSet) :
    log.nextRoundToLog.toNat = lines ∧ decided log.nextRoundToLog = some decidedSet := by
  have hnext := hcached log.nextRoundToLog
  rw [hdecided] at hnext
  split_ifs at hnext with hle
  have hlines := hwritten.lines_le
  have hlt := log.nextRoundToLog.toNat_lt
  refine ⟨?_, hnext.symm⟩
  rw [hwritten.next_eq] at hle hlt ⊢
  exact UInt32.toNat_ofNat_of_lt' (by rw [UInt32.size]; omega)

theorem writeCached_logged (log : DecisionLog) (hwritten : Written decided log lines)
    (hcached : Cached decided log lines) :
    ∃ lines', Logged decided log.writeCached lines' := by
  induction log using writeCached.induct generalizing lines with
  | case1 log hnone =>
      rw [writeCached]
      split
      · refine ⟨lines, hwritten, hcached, ?_⟩
        intro round hround
        have hnext : round = log.nextRoundToLog :=
          (eq_ofNat_of_toNat hround).trans hwritten.next_eq.symm
        have hcache := hcached round
        rw [if_pos hround.ge, hnext, hnone] at hcache
        rw [hnext]
        exact hcache.symm
      · next hsome => rw [hnone] at hsome; cases hsome
  | case2 log decidedSet hsome ih =>
      obtain ⟨hround, hdecided⟩ := getElem_cache_next hwritten hcached hsome
      rw [writeCached]
      split
      · next hnone => rw [hsome] at hnone; cases hnone
      · next decidedSet' hsome' =>
          obtain rfl := Option.some.inj (hsome.symm.trans hsome')
          refine ih (hwritten.write hround hdecided _) ?_
          intro other
          simp only [Std.HashMap.getElem?_erase, hcached other, beq_iff_eq]
          by_cases hsame : log.nextRoundToLog = other
          · rw [if_pos hsame, ← hsame, hround, if_neg (by omega)]
          · have hne : other.toNat ≠ lines := by
              intro heq
              exact hsame (UInt32.toNat_inj.1 (hround.trans heq.symm))
            rw [if_neg hsame]
            by_cases hle : lines ≤ other.toNat
            · rw [if_pos hle, if_pos (by omega)]
            · rw [if_neg hle, if_neg (by omega)]

theorem writeCached_of_isEmpty (hempty : log.outOfOrderCache.isEmpty = true) :
    log.writeCached = log := by
  rw [writeCached]
  split
  · rfl
  · next decidedSet hsome =>
      rw [Std.HashMap.getElem?_of_isEmpty hempty] at hsome
      cases hsome

theorem callback_logged (h : Logged decided log lines) (hround : decided round = none)
    (decidedSet : ProposalT) :
    ∃ lines', Logged (Function.update decided round (some decidedSet))
      (log.callback round decidedSet) lines' := by
  have hle := h.written.le_of_undecided hround
  have hwritten := @Written.update decided log lines round decidedSet h.written hround
  rw [callback]
  by_cases hnext : round = log.nextRoundToLog
  · have hlines : round.toNat = lines := by
      have hlt := round.toNat_lt
      rw [hnext, h.written.next_eq]
      exact UInt32.toNat_ofNat_of_lt' (by rw [UInt32.size]; omega)
    have hcached : Cached (Function.update decided round (some decidedSet))
        ⟨log.nextRoundToLog + 1, log.outOfOrderCache, log.output ++ [line decidedSet]⟩
        (lines + 1) := by
      intro other
      rw [h.cached other]
      by_cases hsame : other = round
      · rw [hsame, hlines, if_pos le_rfl, if_neg (by omega), hround]
      · have hne : other.toNat ≠ lines := by
          intro heq
          exact hsame (UInt32.toNat_inj.1 (heq.trans hlines.symm))
        rw [Function.update_of_ne hsame]
        by_cases hother : lines ≤ other.toNat
        · rw [if_pos hother, if_pos (by omega)]
        · rw [if_neg hother, if_neg (by omega)]
    rw [if_neg (not_not.2 hnext)]
    have hlogged := writeCached_logged _
      (hwritten.write hlines (Function.update_self ..) log.outOfOrderCache) hcached
    dsimp only [writeProposalToOutput]
    split_ifs with hempty
    · rwa [writeCached_of_isEmpty (by exact hempty)] at hlogged
    · exact hlogged
  · rw [if_pos hnext]
    refine ⟨lines, ⟨hwritten.next_eq, hwritten.output_eq, hwritten.isSome_decided,
      hwritten.lines_le⟩, ?_, ?_⟩
    · intro other
      simp only [Std.HashMap.getElem?_insert, beq_iff_eq, h.cached other]
      by_cases hsame : round = other
      · rw [if_pos hsame, ← hsame, if_pos hle, Function.update_self]
      · rw [if_neg hsame, Function.update_of_ne (Ne.symm hsame)]
    · intro other hother
      have hne : other ≠ round := by
        rintro rfl
        exact hnext ((eq_ofNat_of_toNat hother).trans h.written.next_eq.symm)
      rw [Function.update_of_ne hne]
      exact h.undecided other hother

def decisionOf (decisions : List (RoundID × ProposalT)) (round : RoundID) : Option ProposalT :=
  (decisions.find? fun decision => decision.1 = round).map Prod.snd

theorem decisionOf_eq_none_iff {decisions : List (RoundID × ProposalT)} :
    decisionOf decisions round = none ↔ round ∉ decisions.map Prod.fst := by
  simp only [decisionOf, Option.map_eq_none_iff, List.find?_eq_none, decide_eq_true_eq,
    List.mem_map, not_exists, not_and]

theorem decisionOf_append {decisions : List (RoundID × ProposalT)}
    (hround : round ∉ decisions.map Prod.fst) :
    decisionOf (decisions ++ [(round, decidedSet)]) =
      Function.update (decisionOf decisions) round (some decidedSet) := by
  funext other
  rw [decisionOf, List.find?_append]
  by_cases hsame : other = round
  · have hnone := Option.map_eq_none_iff.1 (decisionOf_eq_none_iff.2 hround)
    rw [hsame, hnone, Function.update_self]
    simp
  · rw [Function.update_of_ne hsame, decisionOf]
    cases decisions.find? fun decision => decision.1 = other with
    | some decision => rfl
    | none => simp [Ne.symm hsame]

theorem after_logged (decisions : List (RoundID × ProposalT))
    (hdistinct : (decisions.map Prod.fst).Nodup) :
    ∃ lines, Logged (decisionOf decisions) (after decisions) lines := by
  induction decisions using List.reverseRecOn with
  | nil =>
      refine ⟨0, ⟨rfl, rfl, fun _ h => absurd h (Nat.not_lt_zero _), Nat.zero_le _⟩, ?_,
        fun _ _ => rfl⟩
      intro round
      rw [if_pos (Nat.zero_le _)]
      exact Std.HashMap.getElem?_empty
  | append_singleton decisions decision ih =>
      obtain ⟨round, decidedSet⟩ := decision
      rw [List.map_append, List.map_singleton, List.nodup_append] at hdistinct
      have hnew : round ∉ decisions.map Prod.fst := by
        intro hmem
        exact hdistinct.2.2 round hmem round (List.mem_singleton_self _) rfl
      obtain ⟨lines, hlogged⟩ := ih hdistinct.1
      rw [after, List.foldl_append, decisionOf_append hnew]
      exact callback_logged hlogged (decisionOf_eq_none_iff.2 hnew) decidedSet

theorem getElem_firstDecisions (hround : round.toNat < lines) (hdecided : (decided round).isSome) :
    (firstDecisions decided lines)[round.toNat]? = decided round := by
  obtain ⟨decidedSet, hsome⟩ := Option.isSome_iff_exists.1 hdecided
  rw [firstDecisions, List.getElem?_map, List.getElem?_range hround, Option.map_some,
    UInt32.ofNat_toNat, hsome]
  rfl

/-- Round `k` is the least one without a decision; `k` is `2 ^ 32` when every round has one. -/
structure LeastUndecided (decisions : List (RoundID × ProposalT)) (k : ℕ) : Prop where
  le : k ≤ 2 ^ 32
  decided_below : ∀ round : RoundID, round.toNat < k → round ∈ decisions.map Prod.fst
  undecided : ∀ round : RoundID, round.toNat = k → round ∉ decisions.map Prod.fst

/-- The output has one line for each of the rounds `0, …, k - 1`, the decision of that round, and
the cache holds the decisions of the rounds above `k`. -/
structure WritesInOrder (decisions : List (RoundID × ProposalT)) (log : DecisionLog) (k : ℕ) :
    Prop where
  length_output : log.output.length = k
  output : ∀ round : RoundID, round.toNat < k →
    log.output[round.toNat]? = (decisionOf decisions round).map line
  cache : ∀ round : RoundID,
    log.outOfOrderCache[round]? = if k < round.toNat then decisionOf decisions round else none

/-- The first decisions of any order of distinct rounds are again such an order, so this is the
output after each call. -/
theorem decisions_written_in_order (decisions : List (RoundID × ProposalT))
    (hdistinct : (decisions.map Prod.fst).Nodup) :
    ∃ k, LeastUndecided decisions k ∧ WritesInOrder decisions (after decisions) k := by
  obtain ⟨k, hwritten, hcached, hundecided⟩ := after_logged decisions hdistinct
  refine ⟨k, ⟨hwritten.lines_le, ?_, ?_⟩, ?_, ?_, ?_⟩
  · intro round hround
    by_contra hmem
    have hsome := hwritten.isSome_decided round hround
    rw [decisionOf_eq_none_iff.2 hmem] at hsome
    cases hsome
  · intro round hround
    exact decisionOf_eq_none_iff.1 (hundecided round hround)
  · rw [hwritten.output_eq, List.length_map, firstDecisions, List.length_map, List.length_range]
  · intro round hround
    rw [hwritten.output_eq, List.getElem?_map,
      getElem_firstDecisions hround (hwritten.isSome_decided round hround)]
  · intro round
    rw [hcached round]
    by_cases heq : round.toNat = k
    · rw [if_pos heq.ge, if_neg (by omega), hundecided round heq]
    · by_cases hle : k ≤ round.toNat
      · rw [if_pos hle, if_pos (by omega)]
      · rw [if_neg hle, if_neg (by omega)]

/-- Rounds decided in the order `2, 0, 4, 1`. -/
theorem decisions_written_in_order_four :
    ∃ k, LeastUndecided [(2, [7]), (0, [5]), (4, []), (1, [5, 6])] k ∧
      WritesInOrder [(2, [7]), (0, [5]), (4, []), (1, [5, 6])]
        (after [(2, [7]), (0, [5]), (4, []), (1, [5, 6])]) k :=
  decisions_written_in_order _ (by decide)

end DecisionLog

end BroadcastService.Applications

import BroadcastService.LatticeApplication
import BroadcastService.LatticeDeployment

/-!
# The logs of the lattice agreement application

`applications/lattice_agreement.hpp` on top of all layers below it. The config has one line for each
proposal; the application proposes eight of them at a time, and its callback writes the decisions in
the order of their rounds. When the next batch is proposed is left open here: that the loop waits
for futures and for the rate limiter only rules out runs.

All processes write initial parts of one table of decisions, whatever the network does. Line `r` of
a process holds its own proposal of round `r` and only values proposed in this round, and any two
lines `r` are comparable (`lattice_logs_over_datagrams`). A process writes no more lines than it has
proposals, since it decides no round twice and none that it did not propose.
-/

namespace BroadcastService.Applications
open MessagePassing Transport TransitionSystem
open LatticeWire (Effect Output Process Simulates Valid effectOf latticeBytes mayPropose)

variable {n : ℕ}

/-- `input` are the lines of the config that were not read. -/
structure LatticeAgreementApplication where
  process : Process := {}
  currentRound : RoundID := 0
  input : List ProposalT
  log : DecisionLog := {}

def kMaxNumProposalsInMessage : ℕ := 8

/-- At the end of the file `getline` leaves an empty line. -/
def readProposalFromInput : List ProposalT → ProposalT × List ProposalT
  | [] => ([], [])
  | proposal :: input => (proposal, input)

/-- The loop over `proposal_idx`; `round` is `current_round + proposal_idx`, in 32 bits. -/
def readProposals (numProposals : UInt32) :
    ℕ → RoundID → List ProposalT → List ProposalT × List ProposalT
  | 0, _, input => ([], input)
  | left + 1, round, input =>
      if round < numProposals then
        let (proposal, input) := readProposalFromInput input
        let (proposals, input) := readProposals numProposals left (round + 1) input
        (proposal :: proposals, input)
      else ([], input)

def decisionOfOutput : Output → Option (RoundID × ProposalT)
  | .decide _ round value => some (round, value)
  | _ => none

def DecisionLog.callbacks (log : DecisionLog) (outs : List Output) : DecisionLog :=
  (outs.filterMap decisionOfOutput).foldl (fun log decision => log.callback decision.1 decision.2)
    log

namespace LatticeAgreementApplication

/-- `Propose` returns a future for each proposal of the message. -/
def propose (numProposals : UInt32) (app : LatticeAgreementApplication) :
    Option (LatticeAgreementApplication × List Output) :=
  if app.currentRound < numProposals then
    let (proposals, input) :=
      readProposals numProposals kMaxNumProposalsInMessage app.currentRound app.input
    (app.process.propose app.currentRound proposals).map fun (process, outs) =>
      ({ process, input
         currentRound := app.currentRound + UInt32.ofNat proposals.length
         log := app.log.callbacks outs }, outs)
  else none

def receive (networkSize : ℕ) (app : LatticeAgreementApplication) (peer : UInt8) (bytes : Bytes) :
    Option (LatticeAgreementApplication × List Output) :=
  (app.process.receive networkSize peer bytes).map fun (process, outs) =>
    ({ app with process, log := app.log.callbacks outs }, outs)

end LatticeAgreementApplication

def latticeApplication (n : ℕ) (ids : PeerIds (Fin n)) (numProposals : Fin n → UInt32)
    (config : Fin n → List ProposalT) :
    Program (Fin n) LatticeAgreementApplication Bytes Unit Output where
  start p := { input := config p }
  enabled _ _ _ _ := true
  onInput p app _ := app.propose (numProposals p)
  onMessage _ app src bytes := app.receive n (ids.peerId src) bytes
  emit me output := output.effect.emit ids me

def proposalAt (config : List ProposalT) (r : ℕ) : ProposalT := config.getD r []

theorem readProposals_eq {numProposals : UInt32} {left : ℕ} {round : RoundID}
    {input : List ProposalT} (hround : round.toNat ≤ numProposals.toNat)
    (hleft : round.toNat + left < 2 ^ 32) :
    readProposals numProposals left round input =
      ((List.range (min left (numProposals.toNat - round.toNat))).map (proposalAt input),
        input.drop (min left (numProposals.toNat - round.toNat))) := by
  induction left generalizing round input with
  | zero => simp [readProposals]
  | succ left ih =>
      rw [readProposals]
      by_cases hlt : round < numProposals
      · have hlt' := UInt32.lt_iff_toNat_lt.1 hlt
        have hsucc : (round + 1).toNat = round.toNat + 1 := by
          rw [UInt32.toNat_add, UInt32.toNat_one]
          omega
        rw [if_pos hlt]
        have hrest := @ih (round + 1) (readProposalFromInput input).2 (by omega) (by omega)
        simp only [hrest, hsucc]
        have hcount : min (left + 1) (numProposals.toNat - round.toNat) =
            min left (numProposals.toNat - (round.toNat + 1)) + 1 := by omega
        rw [hcount, List.range_succ_eq_map]
        cases input with
        | nil =>
            have hempty : proposalAt [] = fun _ => [] := rfl
            simp [readProposalFromInput, hempty, Function.comp_def]
        | cons proposal input => simp [readProposalFromInput, proposalAt, Function.comp_def]
      · have hle := UInt32.le_iff_toNat_le.1 (UInt32.not_lt.1 hlt)
        rw [if_neg hlt, Nat.sub_eq_zero_of_le hle]
        simp

/-- What the loop has done so far: the rounds below `current_round` are proposed. -/
structure LatticeAgreementApplication.Proposed (numProposals : UInt32) (config : List ProposalT)
    (app : LatticeAgreementApplication) : Prop where
  le : app.currentRound.toNat ≤ numProposals.toNat
  input : app.input = config.drop app.currentRound.toNat
  rounds : app.process.rounds = List.range app.currentRound.toNat
  proposals : ∀ r, app.process.proposals r =
    if r < app.currentRound.toNat then [proposalAt config r] else []

theorem proposalAt_drop (config : List ProposalT) (first : ℕ) :
    proposalAt (config.drop first) = fun i => proposalAt config (first + i) := by
  funext i
  simp [proposalAt, List.getD_eq_getElem?_getD, List.getElem?_drop]

theorem valid_proposalAt {V : Finset UInt32} {config : List ProposalT}
    (hconfig : ∀ value ∈ config, Valid V value) (r : ℕ) : Valid V (proposalAt config r) := by
  rw [proposalAt, List.getD_eq_getElem?_getD]
  cases hr : config[r]? with
  | none => exact .nil
  | some value => exact hconfig value (List.mem_of_getElem? hr)

section Propose

variable {numProposals : UInt32} {config : List ProposalT} {V : Finset UInt32}
  {app app' : LatticeAgreementApplication} {outs : List Output}

def nextBatch (numProposals : UInt32) (config : List ProposalT) (first : ℕ) : List ProposalT :=
  (List.range' first (min kMaxNumProposalsInMessage (numProposals.toNat - first))).map
    (proposalAt config)

theorem length_nextBatch (first : ℕ) : (nextBatch numProposals config first).length =
    min kMaxNumProposalsInMessage (numProposals.toNat - first) := by
  rw [nextBatch, List.length_map, List.length_range']

theorem LatticeAgreementApplication.Proposed.read (h : app.Proposed numProposals config)
    (hm : numProposals.toNat + 7 < 2 ^ 32) (hlt : app.currentRound < numProposals) :
    readProposals numProposals kMaxNumProposalsInMessage app.currentRound app.input =
      (nextBatch numProposals config app.currentRound.toNat,
        config.drop (app.currentRound.toNat +
          (nextBatch numProposals config app.currentRound.toNat).length)) := by
  have hlt' := UInt32.lt_iff_toNat_lt.1 hlt
  rw [readProposals_eq h.le (by rw [kMaxNumProposalsInMessage]; omega), length_nextBatch, nextBatch,
    h.input, List.drop_drop, proposalAt_drop, List.range'_eq_map_range, List.map_map]
  rfl

theorem entryAt_nextBatch (first r : ℕ) : entryAt first (nextBatch numProposals config first) r =
    if first ≤ r ∧ r < first + (nextBatch numProposals config first).length then
      some (proposalAt config r)
    else none := by
  rw [entryAt, length_nextBatch, nextBatch]
  by_cases hle : first ≤ r
  · rw [if_pos hle, List.getElem?_map]
    by_cases hlt : r - first < min kMaxNumProposalsInMessage (numProposals.toNat - first)
    · rw [List.getElem?_range' hlt, if_pos (by omega), Option.map_some, one_mul,
        Nat.add_sub_cancel' hle]
    · rw [List.getElem?_eq_none (by rw [List.length_range']; omega), if_neg (by omega)]
      rfl
  · rw [if_neg hle, if_neg fun h => hle h.1]

theorem LatticeAgreementApplication.Proposed.mayPropose (h : app.Proposed numProposals config)
    (hm : numProposals.toNat + 7 < 2 ^ 32) (hconfig : ∀ value ∈ config, Valid V value) :
    mayPropose V app.process app.currentRound
      (nextBatch numProposals config app.currentRound.toNat) = true := by
  have hle := h.le
  have hlength := @length_nextBatch numProposals config app.currentRound.toNat
  rw [kMaxNumProposalsInMessage] at hlength
  rw [LatticeWire.mayPropose_iff]
  refine ⟨⟨by omega, by omega⟩, fun value hvalue => ?_, fun r hr => ?_⟩
  · obtain ⟨i, -, rfl⟩ := List.mem_map.1 hvalue
    exact valid_proposalAt hconfig i
  · rw [h.rounds, List.mem_range]
    have hfirst := (List.mem_range'_1.1 hr).1
    omega

theorem LatticeAgreementApplication.Proposed.propose (h : app.Proposed numProposals config)
    (hm : numProposals.toNat + 7 < 2 ^ 32) (hs : app.propose numProposals = some (app', outs)) :
    app.process.propose app.currentRound
        (nextBatch numProposals config app.currentRound.toNat) = some (app'.process, outs) ∧
      app'.log = app.log.callbacks outs ∧ app'.Proposed numProposals config := by
  obtain ⟨hlt, hs⟩ := Option.ite_none_right_eq_some.1 hs
  rw [h.read hm hlt] at hs
  obtain ⟨⟨process, outs'⟩, hprocess, he⟩ := Option.map_eq_some_iff.1 hs
  obtain ⟨rfl, rfl⟩ := Prod.mk.inj he
  refine ⟨hprocess, rfl, ?_⟩
  have hle := h.le
  have hlength := @length_nextBatch numProposals config app.currentRound.toNat
  rw [kMaxNumProposalsInMessage] at hlength
  have hsum : (app.currentRound + UInt32.ofNat
      (nextBatch numProposals config app.currentRound.toNat).length).toNat =
      app.currentRound.toNat + (nextBatch numProposals config app.currentRound.toNat).length := by
    rw [UInt32.toNat_add, UInt32.toNat_ofNat_of_lt' (by rw [UInt32.size]; omega)]
    omega
  obtain ⟨⟨la, futures, outs₁⟩, -, he⟩ := Option.map_eq_some_iff.1 hprocess
  obtain ⟨rfl, rfl⟩ := Prod.mk.inj he
  constructor
  · simp only [hsum]
    omega
  · simp only [hsum]
  · have hrounds := h.rounds
    rw [List.range_eq_range', Process.rounds] at hrounds
    simp only [hsum, Process.rounds, List.flatMap_append, List.flatMap_singleton, hrounds,
      List.range_eq_range']
    simpa using @List.range'_append_1 0 app.currentRound.toNat
      (nextBatch numProposals config app.currentRound.toNat).length
  · intro r
    have hproposals := h.proposals r
    rw [Process.proposals] at hproposals
    simp only [hsum, Process.proposals, List.filterMap_append, hproposals, List.filterMap_cons,
      List.filterMap_nil, entryAt_nextBatch]
    by_cases hold : r < app.currentRound.toNat
    · rw [if_pos hold, if_neg (by omega), if_pos (by omega)]
      rfl
    · rw [if_neg hold]
      by_cases hnew : r < app.currentRound.toNat +
          (nextBatch numProposals config app.currentRound.toNat).length
      · rw [if_pos ⟨by omega, hnew⟩, if_pos hnew]
        rfl
      · rw [if_neg fun h => hnew h.2, if_neg hnew]
        rfl

end Propose

def isCallback : RoundOutput (Fin n) → Bool
  | .callback _ => true
  | _ => false

theorem countP_isCallback {r : ℕ} {w : RoundWorld n} (hw : (roundProgram n r).Reachable w)
    (p : Fin n) :
    (w.trace p).countP isCallback = if (w.node p).state.completed then 1 else 0 := by
  refine round_local (Q := fun s t => t.countP isCallback = if s.state.completed then 1 else 0) hw
    rfl ?_ ?_ p
  · intro w p v b _ ih _
    cases b <;> simpa [RoundNode.onPropose, isCallback] using ih
  · intro w src dst m s outs _ ih _ hr
    cases hr with
    | decided a hc hn hacks => simpa [isCallback, hc] using ih
    | _ => simpa [isCallback] using ih

def callbackRound : LAOutput (Fin n) → Option ℕ
  | .callback round _ => some round
  | _ => none

theorem nodup_callbackRound {v : LAWorld n} (hv : (latticeProgram n).Reachable v) (p : Fin n) :
    ((v.trace p).filterMap callbackRound).Nodup := by
  rw [List.nodup_iff_count_le_one]
  intro r
  have hround := countP_isCallback (round_reachable hv r) p
  have hcount : ((v.trace p).filterMap callbackRound).count r =
      (((roundProjection n r).world v).trace p).countP isCallback := by
    have htrace : ((roundProjection n r).world v).trace p =
        (v.trace p).filterMap (LAOutput.atRound r) := rfl
    rw [htrace, List.count, List.countP_filterMap, List.countP_filterMap]
    apply List.countP_congr
    intro o _
    cases o with
    | callback round value =>
        by_cases hr : round = r <;> simp [callbackRound, LAOutput.atRound, isCallback, hr]
    | propose message =>
        cases h : message.atRound r <;> simp [callbackRound, LAOutput.atRound, isCallback, h]
    | broadcast message =>
        cases h : message.onWire.atRound r <;>
          simp [callbackRound, LAOutput.atRound, isCallback, h]
    | send dst message =>
        cases h : message.onWire.atRound r <;>
          simp [callbackRound, LAOutput.atRound, isCallback, h]
    | setPromise contract => simp [callbackRound, LAOutput.atRound]
  rw [hcount, hround]
  split_ifs <;> omega

section Decided

variable {ids : PeerIds (Fin n)} {V : Finset UInt32} {w : World (Fin n) Process Bytes Output}
  {v : LAWorld n}

def decidedRound : Effect → Option RoundID
  | .decide round _ => some round
  | _ => none

theorem nodup_decided (hv : (latticeProgram n).Reachable v)
    (h : Related LatticeWire.encode (fun _ => Simulates ids V) w v) (p : Fin n) :
    (((w.trace p).filterMap decisionOfOutput).map Prod.fst).Nodup := by
  have hrounds : ((w.trace p).filterMap decisionOfOutput).map Prod.fst =
      ((v.trace p).filterMap callbackRound).map UInt32.ofNat := by
    calc ((w.trace p).filterMap decisionOfOutput).map Prod.fst
        = ((w.trace p).map Output.effect).filterMap decidedRound := by
          rw [List.map_filterMap, List.filterMap_map]
          apply List.filterMap_congr
          intro o _
          cases o <;> rfl
      _ = ((v.trace p).filterMap (effectOf ids.peerId)).filterMap decidedRound := by
          rw [(h.node p).effects]
      _ = ((v.trace p).filterMap callbackRound).map UInt32.ofNat := by
          rw [List.map_filterMap, List.filterMap_filterMap]
          apply List.filterMap_congr
          intro o _
          cases o <;> rfl
  have hlt : ∀ r ∈ (v.trace p).filterMap callbackRound, r < 2 ^ 32 := by
    intro r hr
    obtain ⟨o, ho, he⟩ := List.mem_filterMap.1 hr
    cases o with
    | callback round value =>
        obtain rfl := Option.some.inj he
        exact (h.node p).fits _ ho
    | _ => cases he
  rw [hrounds]
  apply List.Nodup.map_on _ (nodup_callbackRound hv p)
  intro r hr r' hr' he
  have hnat := congrArg UInt32.toNat he
  rwa [UInt32.toNat_ofNat_of_lt' (hlt r hr), UInt32.toNat_ofNat_of_lt' (hlt r' hr')] at hnat

end Decided

section Logs

variable {ids : PeerIds (Fin n)} {V : Finset UInt32} {numProposals : Fin n → UInt32}
  {config : Fin n → List ProposalT}

/-- An application, its outputs and its lattice agreement object. -/
structure Runs (numProposals : UInt32) (config : List ProposalT) (app : LatticeAgreementApplication)
    (t : List Output) (process : Process) (t' : List Output) : Prop where
  process : app.process = process
  outputs : t = t'
  proposed : app.Proposed numProposals config
  log : app.log = DecisionLog.after (t.filterMap decisionOfOutput)

theorem callbacks_after (t outs : List Output) :
    (DecisionLog.after (t.filterMap decisionOfOutput)).callbacks outs =
      DecisionLog.after ((t ++ outs).filterMap decisionOfOutput) := by
  rw [DecisionLog.callbacks, DecisionLog.after, DecisionLog.after, List.filterMap_append,
    List.foldl_append]

theorem packets_application (p : Fin n) (outs : List Output) :
    (latticeApplication n ids numProposals config).packets p outs =
      ((latticeBytes n ids V).packets p outs).map (Packet.encoded id) :=
  (List.map_id _).symm

theorem process_reachable (hm : ∀ p, (numProposals p).toNat + 7 < 2 ^ 32)
    (hconfig : ∀ p, ∀ value ∈ config p, Valid V value)
    {w : World (Fin n) LatticeAgreementApplication Bytes Output}
    (hw : (latticeApplication n ids numProposals config).Reachable w) :
    ∃ v, (latticeBytes n ids V).Reachable v ∧
      Related id (fun p => Runs (numProposals p) (config p)) w v := by
  apply exists_related _ _ _ hw
  · intro p
    exact ⟨rfl, rfl, ⟨Nat.zero_le _, rfl, rfl, fun r => rfl⟩, rfl⟩
  · intro w v _ h p x r _ hs
    obtain ⟨app, outs⟩ := r
    obtain ⟨hprocess, houtputs, hproposed, hlog⟩ := h.node p
    obtain ⟨hpropose, hlog', hproposed'⟩ := hproposed.propose (hm p) hs
    refine ⟨((w.node p).currentRound,
        nextBatch (numProposals p) (config p) (w.node p).currentRound.toNat),
      (app.process, outs), ?_, ?_, ⟨rfl, ?_, hproposed', ?_⟩, packets_application p outs⟩
    · rw [← hprocess]
      exact hproposed.mayPropose (hm p) (hconfig p)
    · rw [← hprocess]
      exact hpropose
    · rw [houtputs]
    · rw [hlog', hlog, callbacks_after]
  · intro w v _ h m _ r hs
    obtain ⟨hprocess, houtputs, hproposed, hlog⟩ := h.node m.dst
    obtain ⟨⟨process, outs⟩, hreceive, rfl⟩ := Option.map_eq_some_iff.1 hs
    refine ⟨(process, outs), ?_, ⟨rfl, ?_, ?_, ?_⟩, packets_application m.dst outs⟩
    · rw [← hprocess]
      exact hreceive
    · rw [houtputs]
    · obtain ⟨hle, hinput, hrounds, hproposals⟩ := hproposed
      obtain ⟨⟨la, outs'⟩, -, he⟩ := Option.map_eq_some_iff.1 hreceive
      obtain ⟨rfl, rfl⟩ := Prod.mk.inj he
      exact ⟨hle, hinput, hrounds, hproposals⟩
    · exact (congrArg (DecisionLog.callbacks · outs) hlog).trans (callbacks_after ..)

theorem exists_decisions (hm : ∀ p, (numProposals p).toNat + 7 < 2 ^ 32)
    (hV : V.card + 1 < 2 ^ 32) (hconfig : ∀ p, ∀ value ∈ config p, Valid V value)
    {w : World (Fin n) LatticeAgreementApplication Bytes Output}
    (hw : (latticeApplication n ids numProposals config).Reachable w) :
    ∃ v : LAWorld n, (latticeProgram n).Reachable v ∧
      (∀ p r, initialProposals v p r = if r < (w.node p).currentRound.toNat then
        [proposalAt (config p) r] else []) ∧
      ∀ p, (w.node p).currentRound.toNat ≤ (numProposals p).toNat ∧ ∃ decisions,
        (w.node p).log = DecisionLog.after decisions ∧ (decisions.map Prod.fst).Nodup ∧
        ∀ round value, (round, value) ∈ decisions → .callback round.toNat value ∈ v.trace p := by
  obtain ⟨u, hu, hruns⟩ := process_reachable hm hconfig hw
  obtain ⟨v, hv, hrelated⟩ := LatticeWire.related_of_reachable hV hu
  refine ⟨v, hv, fun p r => ?_, fun p => ⟨(hruns.node p).proposed.le,
    (u.trace p).filterMap decisionOfOutput, ?_, nodup_decided hv hrelated p, ?_⟩⟩
  · rw [LatticeWire.initialProposals_of_related hrelated, ← (hruns.node p).process,
      (hruns.node p).proposed.proposals]
  · rw [← (hruns.node p).outputs]
    exact (hruns.node p).log
  · intro round value hmem
    obtain ⟨o, ho, he⟩ := List.mem_filterMap.1 hmem
    cases o with
    | decide contract round' value' =>
        obtain ⟨rfl, rfl⟩ := Prod.mk.inj (Option.some.inj he)
        exact LatticeWire.callback_of_decide hrelated ho
    | broadcast message => cases he
    | send peer message => cases he

/-- Line `r` of a log is the decision of round `r`. -/
theorem exists_line {decisions : List (RoundID × ProposalT)}
    (hnodup : (decisions.map Prod.fst).Nodup) :
    ∃ decided : ℕ → ProposalT,
      (DecisionLog.after decisions).output =
        (List.range (DecisionLog.after decisions).output.length).map
          (fun r => DecisionLog.line (decided r)) ∧
      ∀ r < (DecisionLog.after decisions).output.length,
        r < 2 ^ 32 ∧ (UInt32.ofNat r, decided r) ∈ decisions := by
  obtain ⟨lines, hlogged⟩ := DecisionLog.after_logged decisions hnodup
  have houtput := hlogged.written.output_eq
  have hlength : (DecisionLog.after decisions).output.length = lines := by
    rw [houtput, List.length_map, DecisionLog.firstDecisions, List.length_map, List.length_range]
  refine ⟨fun r => (DecisionLog.decisionOf decisions (UInt32.ofNat r)).getD [], ?_, fun r hr => ?_⟩
  · rw [hlength, houtput, DecisionLog.firstDecisions, List.map_map]
    rfl
  · have hle := hlogged.written.lines_le
    have hround : (UInt32.ofNat r).toNat = r :=
      UInt32.toNat_ofNat_of_lt' (by rw [UInt32.size]; omega)
    have hsome := hlogged.written.isSome_decided (UInt32.ofNat r) (by omega)
    obtain ⟨value, hvalue⟩ := Option.isSome_iff_exists.1 hsome
    refine ⟨by omega, ?_⟩
    simp only [hvalue, Option.getD_some]
    obtain ⟨decision, hfind, rfl⟩ := Option.map_eq_some_iff.1 hvalue
    have hround' : decision.1 = UInt32.ofNat r := by simpa using List.find?_some hfind
    rw [← hround']
    exact List.mem_of_find?_eq_some hfind

theorem logs_of_lattice (hm : ∀ p, (numProposals p).toNat + 7 < 2 ^ 32)
    (hV : V.card + 1 < 2 ^ 32) (hconfig : ∀ p, ∀ value ∈ config p, Valid V value)
    {w : World (Fin n) LatticeAgreementApplication Bytes Output}
    (hw : (latticeApplication n ids numProposals config).Reachable w) :
    ∃ decided : Fin n → ℕ → ProposalT, ∀ p,
      (w.node p).log.output = (List.range (w.node p).log.output.length).map
        (fun r => DecisionLog.line (decided p r)) ∧
      ∀ r < (w.node p).log.output.length,
        r < (numProposals p).toNat ∧ proposalAt (config p) r ⊆ decided p r ∧
        (∀ x ∈ decided p r, ∃ s, r < (numProposals s).toNat ∧ x ∈ proposalAt (config s) r) ∧
        ∀ q, r < (w.node q).log.output.length →
          decided p r ⊆ decided q r ∨ decided q r ⊆ decided p r := by
  obtain ⟨v, hv, hproposals, hlogs⟩ := exists_decisions hm hV hconfig hw
  choose hle decisions hlog hnodup hcallbacks using hlogs
  choose decided houtput hdecided using fun p => exists_line (hnodup p)
  simp only [← hlog] at houtput hdecided
  have hcallback : ∀ p r, r < (w.node p).log.output.length →
      .callback r (decided p r) ∈ v.trace p := by
    intro p r hr
    obtain ⟨hlt, hmem⟩ := hdecided p r hr
    have hcall := hcallbacks p _ _ hmem
    rwa [UInt32.toNat_ofNat_of_lt' hlt] at hcall
  refine ⟨decided, fun p => ⟨houtput p, fun r hr => ?_⟩⟩
  obtain ⟨⟨u, hu, hown⟩, hvalid⟩ := LatticeWire.valid_of_callback hv (hcallback p r hr)
  have hproposed : ∀ s, ∀ u ∈ initialProposals v s r,
      r < (numProposals s).toNat ∧ u = proposalAt (config s) r := by
    intro s u hu
    rw [hproposals] at hu
    split_ifs at hu with hr
    · exact ⟨lt_of_lt_of_le hr (hle s), List.mem_singleton.1 hu⟩
    · cases hu
  obtain ⟨hlt, rfl⟩ := hproposed p u hu
  refine ⟨hlt, hown, fun x hx => ?_, fun q hq => ?_⟩
  · obtain ⟨s, u', hu', hmem⟩ := hvalid x hx
    obtain ⟨hlt', rfl⟩ := hproposed s u' hu'
    exact ⟨s, hlt', hmem⟩
  · refine LatticeWire.comparable_of_callback hv (fun s u hu => ?_) (hcallback p r hr)
      (hcallback q r hq)
    rw [(hproposed s u hu).2]
    exact (valid_proposalAt (hconfig s) r).1

/-- Over datagrams that may be lost, duplicated and reordered, but are read on the channels of their
senders, the logs of all processes are initial parts of a table of decisions. A decision holds the
own proposal of its round and only values proposed in it, and the decisions of a round form a
chain. -/
theorem lattice_logs_over_datagrams {transport : UInt8 → TransportConfig}
    {route : UInt8 → UInt8 → UInt8} (hm : ∀ p, (numProposals p).toNat + 7 < 2 ^ 32)
    (hV : V.card + 1 < 2 ^ 32) (hconfig : ∀ p, ∀ value ∈ config p, Valid V value)
    {h : StackHistory (Fin n) LatticeAgreementApplication Output}
    (hr : ReachableIn (stackProgram (latticeApplication n ids numProposals config) ids transport
        route).step (fun _ => StackRouted ids route)
      (stackProgram (latticeApplication n ids numProposals config) ids transport route).initial h) :
    ∃ decided : Fin n → ℕ → ProposalT, ∀ p,
      (h.node p).user.log.output = (List.range (h.node p).user.log.output.length).map
        (fun r => DecisionLog.line (decided p r)) ∧
      ∀ r < (h.node p).user.log.output.length,
        r < (numProposals p).toNat ∧ proposalAt (config p) r ⊆ decided p r ∧
        (∀ x ∈ decided p r, ∃ s, r < (numProposals s).toNat ∧ x ∈ proposalAt (config s) r) ∧
        ∀ q, r < (h.node q).user.log.output.length →
          decided p r ⊆ decided q r ∨ decided q r ⊆ decided p r := by
  obtain ⟨w, hw, hlinks⟩ := links_of_stack hr
  simp only [← hlinks.node]
  exact logs_of_lattice hm hV hconfig hw

end Logs

def twoConfigs (p : Fin 2) : List ProposalT := if p.val = 0 then [[1]] else [[2]]

theorem lattice_logs_over_datagrams_two : ∃ h, ReachableIn
    (stackProgram (latticeApplication 2 twoIds (fun _ => 1) twoConfigs) twoIds threeHosts
      fun _ q => q).step (fun _ => StackRouted twoIds fun _ q => q)
    (stackProgram (latticeApplication 2 twoIds (fun _ => 1) twoConfigs) twoIds threeHosts
      fun _ q => q).initial h ∧
    (h.node 0).user.log.output.length = 1 ∧ (h.node 1).user.log.output.length = 1 ∧
    ∃ decided : Fin 2 → ℕ → ProposalT,
      (h.node 0).user.log.output = [DecisionLog.line (decided 0 0)] ∧
      (h.node 1).user.log.output = [DecisionLog.line (decided 1 0)] ∧
      [1] ⊆ decided 0 0 ∧ [2] ⊆ decided 1 0 ∧
      (decided 0 0 ⊆ decided 1 0 ∨ decided 1 0 ⊆ decided 0 0) := by
  obtain ⟨h, hr, hp, hq⟩ : ∃ h, ReachableIn
      (stackProgram (latticeApplication 2 twoIds (fun _ => 1) twoConfigs) twoIds threeHosts
        fun _ q => q).step (fun _ => StackRouted twoIds fun _ q => q)
      (stackProgram (latticeApplication 2 twoIds (fun _ => 1) twoConfigs) twoIds threeHosts
        fun _ q => q).initial h ∧
      (h.node 0).user.log.output.length = 1 ∧ (h.node 1).user.log.output.length = 1 :=
    exists_reachableIn (LatticeWire.twoDecisions 0 1 () ()) (by decide +kernel)
  have hconfig : ∀ p, ∀ value ∈ twoConfigs p, Valid {1, 2} value := by
    intro p
    unfold twoConfigs
    split_ifs <;> simp [Valid]
  obtain ⟨decided, hdecided⟩ := lattice_logs_over_datagrams (by decide) (by decide) hconfig hr
  obtain ⟨houtput, hlines⟩ := hdecided 0
  obtain ⟨houtput', hlines'⟩ := hdecided 1
  obtain ⟨-, hown, -, hcomparable⟩ := hlines 0 (by omega)
  obtain ⟨-, hown', -⟩ := hlines' 0 (by omega)
  rw [hp] at houtput
  rw [hq] at houtput'
  exact ⟨h, hr, hp, hq, decided, houtput, houtput', hown, hown', hcomparable 1 (by omega)⟩

end BroadcastService.Applications

import ModelBlaster.Library.Rounding
import Mathlib.Data.List.Sort
import Mathlib.Data.Rat.Floor
import ModelBlaster.Library.Transducer

/-!
# The round controller

At the start of every round the controller picks what the round does: kernel steps, graph decisions,
the region loop, or nothing any more. It has no state of its own, but reads the records of the rounds
before: what they did, and how much each move gained. Numbers are rational here.

## Main definitions

* `candidateClasses`, `smallUnfusedShare`, `realized`: what is read off a round;
* `Controller.stopped`: the budget guard;
* `Controller.decide`: the decision;
* `Controller.endRound`: the record of a round;
* `RoundInput`, `round`: what the flow brings to a round, and the record of the round;
* `Event`, `rounds`, `history`: the rounds of a configuration among those of others;
* `Alternates`: kernel tuning is not deferred twice in a row;
* `Overlooked`: a deferring round that is not told as one.

## Main results

* `guard_permanent`: a stopped move stays stopped;
* `alternates_iff`: kernel tuning is deferred twice in a row only if a deferring round is overlooked.
-/

namespace ModelBlaster.RoundController

/-! ### Moves -/

/-- `MOVES` -/
inductive MoveName where
  | kernel
  | graph
  | regionLoop
deriving DecidableEq, Repr

@[inherit_doc MoveName]
def moves : List MoveName := [.kernel, .graph, .regionLoop]

/-- `POLICIES` -/
inductive Policy where
  | off
  | fixed
  | graphFirst
  | auto
deriving DecidableEq, Repr

/-- Why a move was picked or not, with the numbers that are reported. -/
inductive Reason where
  /-- "budget guard: … gained …% and …% in its last two rounds (< …%)" -/
  | guard (m : MoveName) (first second minGain : ℚ)
  /-- "budget: spent $… of $…" -/
  | budget (spent budget : ℚ)
  /-- "budget guard: kernel and graph moves both stopped (…; …)" -/
  | bothStopped (kernel graph : Reason)
  /-- "fixed: the flow's order (kernel steps, then the graph decisions)" -/
  | fixedOrder
  /-- "graph-first: first round graph-only (… candidate(s), est. gain …%); …" -/
  | graphFirst (candidates : ℕ) (estGain : ℚ)
  /-- "graph-first: no decidable graph candidate in the first round, kernel + graph as fixed", or
  "graph-first: after the first round: kernel + graph as fixed" -/
  | asFixed (firstRound : Bool)
  /-- "auto: no decidable graph candidate with est. gain >= min_gain_pct: graph move not run" -/
  | noCandidate
  /-- "auto: kernel move out (guard)" -/
  | kernelOut
  /-- "auto: first round graph-only: est. graph gain …% (>= 8.0%) or …% of the time in unfused small
  ops (>= 25%) with a candidate: restructure before tuning kernels" -/
  | firstGraphOnly (estGain small : ℚ)
  /-- "auto: last graph gain …% >= 2.0x the kernel gain …%: graph-only round (…)" -/
  | graphDominates (graph kernel : ℚ)
  /-- "auto: kernel + graph (est. graph gain …%, …% unfused small-op time, last gains kernel …% /
  graph …%, last round)" -/
  | both (estGain small : ℚ) (last : Option (ℚ × ℚ)) (lastRound : Bool)
  /-- "region_loop: flag on, … keeps it with every round" -/
  | regionKept (policy : Policy)
  /-- "region_loop: … live region op(s)" -/
  | regionLive (ops : ℕ)
  /-- "region_loop: … region candidate(s) (est. …%) decided this round" -/
  | regionPending (candidates : ℕ) (estGain : ℚ)
  /-- "region_loop: no live region op and no region candidate to decide: not run" -/
  | regionIdle
  /-- "stop: nothing left to run (kernel and graph moves are out)" -/
  | nothingLeft
deriving DecidableEq, Repr

/-- `round(x, digits)` -/
def roundTo (digits : ℕ) (x : ℚ) : ℚ := (Rounding.halfEven (x * 10 ^ digits) : ℚ) / 10 ^ digits

/-! ### What is read off a round -/

/-- An op of a profile, with the time that it takes. -/
structure OpProfile where
  op : String
  us : ℚ
deriving DecidableEq, Repr

/-- `SMALL_CLASSES` -/
def smallClasses : List String := ["elementwise", "data_movement", "reduction"]

/-- `small_unfused_share`: how much of the time is in small ops that are not fused. -/
def smallUnfusedShare (opClass : String → String) (smallUs : ℚ) (profiles : List (List OpProfile)) :
    ℚ :=
  let ops := profiles.flatten
  let total := (ops.map OpProfile.us).sum
  let small := ops.filter fun o =>
    ¬("fused__".toList.isPrefixOf o.op.toList ∨ "region__".toList.isPrefixOf o.op.toList) ∧
      o.us ≤ smallUs ∧ opClass o.op ∈ smallClasses
  if total ≠ 0 then roundTo 4 ((small.map OpProfile.us).sum / total) else 0

/-- `live_region_ops` -/
def liveRegionOps (profiles : List (List OpProfile)) : ℕ :=
  (profiles.flatten.filter fun o => "region__".toList.isPrefixOf o.op.toList).length

/-- A graph hint. Each of its sources may estimate the gain. -/
structure Hint where
  id : String
  kind : String
  source : List (Option ℚ)
deriving DecidableEq, Repr

/-- `_est` -/
def Hint.est (h : Hint) : ℚ :=
  match h.source.map (·.getD 0) with
  | [] => 0
  | e :: es => es.foldl max e

/-- The decidable hints of one class. -/
structure Candidate where
  n : ℕ
  estGainPct : ℚ
  best : Option String
deriving DecidableEq, Repr

/-- `TOP_K` -/
def topK : ℕ := 3

/-- The hints of a class, the best first. -/
def candidateOf (hints : List Hint) : Candidate :=
  let best := hints.insertionSort fun a b => b.est ≤ a.est
  { n := hints.length
    estGainPct := roundTo 2 (min 100 ((best.take topK).map Hint.est).sum)
    best := best.head?.map Hint.id }

/-- What `candidate_classes` returns. -/
structure Candidates where
  graph : Candidate
  merge : Candidate
  region : Candidate
deriving DecidableEq, Repr

/-- `candidate_classes` -/
def candidateClasses (hints : List Hint) (minGainPct : ℚ) : Candidates :=
  let decidable := hints.filter fun h => minGainPct ≤ h.est
  { graph := candidateOf
      (decidable.filter fun h => h.kind ≠ "merge_sibling_convs" ∧ h.kind ≠ "fuse_region")
    merge := candidateOf (decidable.filter fun h => h.kind = "merge_sibling_convs")
    region := candidateOf (decidable.filter fun h => h.kind = "fuse_region") }

/-- `g_est` -/
def Candidates.estGain (c : Candidates) : ℚ :=
  c.graph.estGainPct + c.merge.estGainPct + c.region.estGainPct

/-- The candidates of all classes. -/
def Candidates.count (c : Candidates) : ℕ := c.graph.n + c.merge.n + c.region.n

/-- A tuning run. -/
structure KbRun where
  baselineUs : ℚ
  finalUs : ℚ
  finalOk : Bool
deriving DecidableEq, Repr

/-- A paired decision about a hint. A variant that was not measured has no time. -/
structure Decision where
  hint : String
  accepted : Bool
  originalUs : Option ℚ
  variantUs : Option ℚ
deriving DecidableEq, Repr

/-- What the controller reads of a finished round. -/
structure Outcome where
  partitionUs : List ℚ
  kbRuns : List KbRun
  decisions : List Decision
  /-- The kinds of the hints by their ids, the last entry of an id first. -/
  kinds : List (String × String)
  planProblems : ℕ
deriving DecidableEq, Repr

def Outcome.kindOf (o : Outcome) (hint : String) : Option String := o.kinds.lookup hint

/-- What `realized` returns. -/
structure Gain where
  kernelPct : ℚ
  graphPct : ℚ
  regionPct : ℚ
  acceptedGraph : ℕ
  acceptedRegion : ℕ
deriving DecidableEq, Repr

/-- The gains of the accepted decisions, of hints that are about regions or not. -/
def acceptedGains (o : Outcome) (region : Bool) : List ℚ :=
  (o.decisions.filter fun d => d.accepted ∧
      decide (o.kindOf d.hint = some "fuse_region") = region).filterMap
    fun d => do
      let original ← d.originalUs
      let variant ← d.variantUs
      return max 0 (original - variant)

/-- `realized` -/
def realized (o : Outcome) : Gain :=
  let total := o.partitionUs.sum
  let kernel := ((o.kbRuns.filter KbRun.finalOk).map fun x => max 0 (x.baselineUs - x.finalUs)).sum
  let pct (x : ℚ) : ℚ := if total ≠ 0 then roundTo 3 (100 * x / total) else 0
  { kernelPct := pct kernel
    graphPct := pct (acceptedGains o false).sum
    regionPct := pct (acceptedGains o true).sum
    acceptedGraph := (acceptedGains o false).length
    acceptedRegion := (acceptedGains o true).length }

@[inherit_doc Gain]
def Gain.pct (g : Gain) : MoveName → ℚ
  | .kernel => g.kernelPct
  | .graph => g.graphPct
  | .regionLoop => g.regionPct

/-! ### Records -/

/-- What `decide` reads. -/
structure Features where
  firstRound : Bool
  roundsLeft : ℤ
  smallShare : ℚ
  candidates : Candidates
  liveRegionOps : ℕ
  /-- The last gains, of the kernel move, and of the graph move and the region loop. -/
  lastGainPct : Option (ℚ × ℚ)
deriving DecidableEq, Repr

/-- `Move` -/
structure Move where
  kernel : Bool
  graph : Bool
  regionLoop : Bool
  stop : Bool
  /-- A move is held back to a later round. -/
  deferred : Bool
  reasons : List Reason
  inputs : Features
deriving DecidableEq, Repr

/-- The moves that are on, by their names. -/
def onNames (kernel graph regionLoop : Bool) : List String :=
  (if kernel then ["kernel"] else []) ++ (if graph then ["graph"] else []) ++
    if regionLoop then ["region_loop"] else []

/-- `Move.label` -/
def Move.label (mv : Move) : String :=
  if mv.stop then "stop"
  else
    match onNames mv.kernel mv.graph mv.regionLoop with
    | [] => "stop"
    | names => "+".intercalate names

/-- Whether a move is on. -/
def Move.enables (mv : Move) : MoveName → Bool
  | .kernel => mv.kernel
  | .graph => mv.graph
  | .regionLoop => mv.regionLoop

@[inherit_doc Move]
def Move.because (mv : Move) (why : Reason) : Move := { mv with reasons := mv.reasons ++ [why] }

/-- `rec_ctl`: the record of a round. A round that was stopped has no gain, and none of its moves has
worked. -/
structure Record where
  policy : Policy
  move : String
  kernel : Bool
  graph : Bool
  regionLoop : Bool
  stop : Bool
  deferred : Bool
  reasons : List Reason
  inputs : Option Features
  gain : Option Gain
  worked : Option (MoveName → Bool)
  spentUsd : Option ℚ

/-- Whether a move has worked. -/
def Record.hasWorked (h : Record) (m : MoveName) : Bool := h.worked.any (· m)

/-- `to_dict` -/
def Move.toDict (mv : Move) (policy : Policy) : Record where
  policy := policy
  move := mv.label
  kernel := mv.kernel
  graph := mv.graph
  regionLoop := mv.regionLoop
  stop := mv.stop
  deferred := mv.deferred
  reasons := mv.reasons
  inputs := some mv.inputs
  gain := none
  worked := none
  spentUsd := none

/-! ### The controller -/

/-- `RoundController` -/
structure Controller where
  policy : Policy
  /-- A fraction of the time of the model. -/
  minGain : ℚ
  /-- 0 if there is no budget. -/
  budgetUsd : ℚ
  smallUs : ℚ
  /-- `op_class` -/
  opClass : String → String

namespace Controller

variable (c : Controller)

/-- The gains of a move in the last two rounds in which it worked. -/
def lastGains (hist : List Record) (m : MoveName) : List ℚ :=
  let worked := hist.filter (Record.hasWorked · m)
  (worked.drop (worked.length - 2)).map fun h => (h.gain.map (Gain.pct · m)).getD 0

/-- `stopped`: why the guard stops a move, if it does. -/
def stopped (hist : List Record) (m : MoveName) : Option Reason :=
  match lastGains hist m with
  | [first, second] =>
    if first < 100 * c.minGain ∧ second < 100 * c.minGain then
      some (.guard m first second (roundTo 3 (100 * c.minGain)))
    else none
  | _ => none

/-- `pre_stop` -/
def preStop (hist : List Record) (spentUsd : ℚ) : Option Reason :=
  if c.budgetUsd ≠ 0 ∧ c.budgetUsd ≤ spentUsd then some (.budget spentUsd c.budgetUsd)
  else
    match c.stopped hist .kernel, c.stopped hist .graph with
    | some kernel, some graph => some (.bothStopped kernel graph)
    | _, _ => none

/-- `features` -/
def features (firstRound : Bool) (roundsLeft : ℤ) (profiles : List (List OpProfile))
    (hints : List Hint) (minGainPct : ℚ) (hist : List Record) : Features where
  firstRound := firstRound
  roundsLeft := roundsLeft
  smallShare := smallUnfusedShare c.opClass c.smallUs profiles
  candidates := candidateClasses hints minGainPct
  liveRegionOps := liveRegionOps profiles
  lastGainPct := (hist.getLast?.bind Record.gain).map fun g =>
    (g.kernelPct, roundTo 3 (g.graphPct + g.regionPct))

/-- `prev_graph_only` -/
def prevGraphOnly (hist : List Record) : Bool := hist.getLast?.any (·.move = "graph")

/-- The last graph gain is a multiple of the kernel gain. -/
def dominates (last : ℚ × ℚ) : Bool := 2 * max last.1 (100 * c.minGain) ≤ last.2

/-- `_auto` -/
def auto (mv : Move) (f : Features) (hist : List Record) (kernelOk graphOk : Bool) : Move :=
  let estGain := f.candidates.estGain
  let mv := { mv with kernel := kernelOk, graph := graphOk }
  let mv := if ¬graphOk ∧ (c.stopped hist .graph).isNone then mv.because .noCandidate else mv
  if ¬(kernelOk ∧ graphOk) then
    if ¬kernelOk then mv.because .kernelOut else mv
  else if f.firstRound ∧ (8 ≤ estGain ∨ 1 / 4 ≤ f.smallShare ∧ 0 < estGain) then
    { mv with kernel := false, deferred := true }.because
      (.firstGraphOnly (roundTo 2 estGain) (roundTo 1 (100 * f.smallShare)))
  else
    match f.lastGainPct.filter fun last => c.dominates last ∧ ¬prevGraphOnly hist with
    | some last =>
      { mv with kernel := false, deferred := true }.because (.graphDominates last.2 last.1)
    | none =>
      mv.because (.both (roundTo 2 estGain) (roundTo 1 (100 * f.smallShare)) f.lastGainPct
        (f.roundsLeft ≤ 1))

/-- The moves of the policy. -/
def pick (f : Features) (hist : List Record) : Move :=
  let estGain := f.candidates.estGain
  let mv : Move := ⟨true, true, false, false, false, moves.filterMap (c.stopped hist), f⟩
  let graphOk := (c.stopped hist .graph).isNone ∧ (0 < estGain ∨ c.policy = .fixed)
  let kernelOk := (c.stopped hist .kernel).isNone
  match c.policy with
  | .fixed =>
    { mv with kernel := kernelOk, graph := (c.stopped hist .graph).isNone }.because .fixedOrder
  | .graphFirst =>
    let mv := { mv with kernel := kernelOk, graph := (c.stopped hist .graph).isNone }
    if f.firstRound ∧ graphOk ∧ 0 ≤ estGain ∧ 0 < f.candidates.count then
      { mv with kernel := false, deferred := true }.because
        (.graphFirst f.candidates.count (roundTo 2 (min 100 estGain)))
    else mv.because (.asFixed f.firstRound)
  | _ => c.auto mv f hist kernelOk graphOk

/-- The region loop, where it has something to act on. -/
def withRegionLoop (rlActive : Bool) (f : Features) (hist : List Record) (mv : Move) : Move :=
  if rlActive ∧ ¬mv.stop then
    let live := 0 < f.liveRegionOps
    let pending := 0 < f.candidates.region.n
    match c.stopped hist .regionLoop with
    | some why => mv.because why
    | none =>
      if c.policy = .fixed ∨ c.policy = .graphFirst then
        { mv with regionLoop := mv.kernel || mv.graph }.because (.regionKept c.policy)
      else if live ∧ mv.kernel then
        { mv with regionLoop := true }.because (.regionLive f.liveRegionOps)
      else if pending ∧ mv.graph then
        { mv with regionLoop := true }.because
          (.regionPending f.candidates.region.n f.candidates.region.estGainPct)
      else mv.because .regionIdle
  else mv

/-- A round without kernel and graph moves is none. No other reason speaks of a stop. -/
def withStop (mv : Move) : Move :=
  if ¬mv.kernel ∧ ¬mv.graph then
    { mv with stop := true, regionLoop := false }.because .nothingLeft
  else mv

/-- `decide` -/
def decide (rlActive : Bool) (f : Features) (hist : List Record) : Move :=
  withStop (c.withRegionLoop rlActive f hist (c.pick f hist))

/-- `begin` -/
def begin (mv : Move) : Record := mv.toDict c.policy

/-- `end_round` -/
def endRound (rec : Record) (o : Outcome) (spentUsd : ℚ) : Record :=
  let regionDecisions := o.decisions.filter fun d => o.kindOf d.hint = some "fuse_region"
  { rec with
    gain := some (realized o)
    worked := some fun
      | .kernel => rec.kernel && o.planProblems ≠ 0
      | .graph => rec.graph && o.decisions ≠ []
      | .regionLoop => rec.regionLoop &&
          (regionDecisions ≠ [] || rec.inputs.any fun f => f.liveRegionOps ≠ 0)
    spentUsd := some (roundTo 4 spentUsd) }

/-- `stop_record` -/
def stopRecord (mv : Option Move) (reason : Reason) : Record :=
  match mv with
  | some mv => mv.toDict c.policy
  | none =>
    { policy := c.policy, move := "stop", kernel := false, graph := false, regionLoop := false,
      stop := true, deferred := false, reasons := [reason], inputs := none, gain := none,
      worked := none, spentUsd := none }

end Controller

/-! ## Runs of the round controller -/

open History List

/-! ### Runs -/

/-- What the flow brings to a round. -/
structure RoundInput where
  rlActive : Bool
  roundsLeft : ℤ
  profiles : List (List OpProfile)
  /-- The proposed hints of the kinds that can be decided. -/
  hints : List Hint
  minGainPct : ℚ
  /-- What is spent when the round starts. -/
  spentUsd : ℚ
  outcome : Outcome
  /-- What is spent when the round ends. -/
  spentAfterUsd : ℚ

namespace Controller

variable (c : Controller)

/-- What is decided on at the start of a round. -/
def featuresOf (hist : List Record) (i : RoundInput) : Features :=
  c.features hist.isEmpty i.roundsLeft i.profiles i.hints i.minGainPct hist

/-- The record of a round. -/
def round (hist : List Record) (i : RoundInput) : Record :=
  match c.preStop hist i.spentUsd with
  | some why => c.stopRecord none why
  | none =>
    let mv := c.decide i.rlActive (c.featuresOf hist i) hist
    if mv.stop then c.stopRecord (some mv) .nothingLeft
    else endRound (c.begin mv) i.outcome i.spentAfterUsd

/-- A round of the configuration, or one of another configuration. -/
inductive Event where
  | own (i : RoundInput)
  | other (key : String) (rec : Option Record)

/-- `history`: the records of the rounds of a configuration. -/
def history (kh : String) (rounds : List (String × Option Record)) : List Record :=
  rounds.filterMap fun x => if x.1 = kh then x.2 else none

/-- What an event adds to `state["rounds"]`. Other configurations have other keys. -/
def roundOf (kh : String) (rounds : List (String × Option Record)) : Event → String × Option Record
  | .own i => (kh, some (c.round (history kh rounds) i))
  | .other key rec => (key, if key = kh then none else rec)

/-- `state["rounds"]` -/
def rounds (kh : String) (events : List Event) : List (String × Option Record) :=
  replay (c.roundOf kh) events

/-- The records of the rounds of the configuration. -/
def records (kh : String) (events : List Event) : List Record :=
  history kh (c.rounds kh events)

variable {c} {kh : String}

/-- What an event adds to the records of the configuration. -/
def recorded (c : Controller) (hist : List Record) : Event → List Record
  | .own i => [c.round hist i]
  | .other _ _ => []

theorem history_concat (rounds : List (String × Option Record)) (e : Event) :
    history kh (rounds ++ [c.roundOf kh rounds e]) =
      history kh rounds ++ c.recorded (history kh rounds) e := by
  rw [history, filterMap_append]
  cases e with
  | own i =>
    show _ ++ List.filterMap _ [(kh, some (c.round _ i))] = _
    rw [filterMap_cons, if_pos rfl]
    rfl
  | other key rec =>
    -- Another key is not read, and the same key has no record.
    show _ ++ List.filterMap _ [(key, if key = kh then none else rec)] = _
    rw [filterMap_cons]
    by_cases hkey : key = kh
    · rw [if_pos hkey, if_pos hkey]
      rfl
    · rw [if_neg hkey]
      rfl

theorem records_concat (events : List Event) (e : Event) :
    c.records kh (events ++ [e]) =
      c.records kh events ++ c.recorded (c.records kh events) e := by
  rw [records, rounds, replay_concat, history_concat]
  rfl

/-- What every round keeps holds of the records of the configuration. -/
theorem records_induction {P : List Record → Prop} (hnil : P [])
    (hstep : ∀ hist i, P hist → P (hist ++ [c.round hist i])) (events : List Event) :
    P (c.records kh events) := by
  apply replay_induction (P := fun rounds => P (history kh rounds)) hnil
  intro rounds e ih
  rw [history_concat]
  cases e with
  | own i => exact hstep _ i ih
  | other key rec =>
    rw [recorded, append_nil]
    exact ih

/-! ### Decisions -/

section
variable (f : Features) (hist : List Record)

/-- Kernel tuning waits for the graph to be restructured. -/
def Defers (c : Controller) (f : Features) (hist : List Record) : Prop :=
  (f.firstRound = true ∧
    (8 ≤ f.candidates.estGain ∨ 1 / 4 ≤ f.smallShare ∧ 0 < f.candidates.estGain)) ∨
  ∃ last, f.lastGainPct = some last ∧ c.dominates last = true ∧ prevGraphOnly hist = false

/-- What `_auto` makes of a move. -/
structure AutoSpec (c : Controller) (f : Features) (hist : List Record) (kernelOk graphOk : Bool)
    (mv mv' : Move) : Prop where
  graph : mv'.graph = graphOk
  kernel : mv'.kernel = true ↔ kernelOk = true ∧ ¬(graphOk = true ∧ Defers c f hist)
  deferred : mv'.deferred = true ↔
    mv.deferred = true ∨ kernelOk = true ∧ graphOk = true ∧ Defers c f hist
  regionLoop : mv'.regionLoop = mv.regionLoop
  stop : mv'.stop = mv.stop

end

/-- A reason changes nothing else. -/
structure SameButReasons (mv mv' : Move) : Prop where
  kernel : mv'.kernel = mv.kernel
  graph : mv'.graph = mv.graph
  regionLoop : mv'.regionLoop = mv.regionLoop
  stop : mv'.stop = mv.stop
  deferred : mv'.deferred = mv.deferred

theorem auto_spec (mv : Move) (f : Features) (hist : List Record) (kernelOk graphOk : Bool) :
    AutoSpec c f hist kernelOk graphOk mv (c.auto mv f hist kernelOk graphOk) := by
  rw [auto]
  obtain ⟨mv₁, hmv₁, hsame⟩ : ∃ mv₁, (if ¬graphOk ∧ (c.stopped hist .graph).isNone then
      ({ mv with kernel := kernelOk, graph := graphOk } : Move).because .noCandidate
      else { mv with kernel := kernelOk, graph := graphOk }) = mv₁ ∧
        SameButReasons { mv with kernel := kernelOk, graph := graphOk } mv₁ := by
    refine ⟨_, rfl, ?_⟩
    split_ifs
    · exact ⟨rfl, rfl, rfl, rfl, rfl⟩
    · exact ⟨rfl, rfl, rfl, rfl, rfl⟩
  simp only [hmv₁]
  by_cases hok : kernelOk = true ∧ graphOk = true
  · rw [if_neg (not_not.mpr hok)]
    obtain ⟨rfl, rfl⟩ := hok
    by_cases hfirst : f.firstRound = true ∧
        (8 ≤ f.candidates.estGain ∨ 1 / 4 ≤ f.smallShare ∧ 0 < f.candidates.estGain)
    · rw [if_pos hfirst]
      have hdefers : Defers c f hist := .inl hfirst
      exact ⟨hsame.graph, by simp [Move.because, hdefers], by simp [Move.because, hdefers],
        hsame.regionLoop, hsame.stop⟩
    · rw [if_neg hfirst]
      cases hlast : f.lastGainPct.filter fun last => c.dominates last ∧ ¬prevGraphOnly hist with
      | some last =>
        have hdefers : Defers c f hist := by
          obtain ⟨hsome, hcond⟩ := Option.filter_eq_some_iff.mp hlast
          obtain ⟨hdom, hprev⟩ := of_decide_eq_true hcond
          exact .inr ⟨last, hsome, hdom, Bool.not_eq_true _ ▸ hprev⟩
        exact ⟨hsame.graph, by simp [Move.because, hdefers], by simp [Move.because, hdefers],
          hsame.regionLoop, hsame.stop⟩
      | none =>
        have hnot : ¬Defers c f hist := by
          rintro (h | ⟨last, hsome, hdom, hprev⟩)
          · exact hfirst h
          · rw [hsome, Option.filter_some, hdom, hprev] at hlast
            cases hlast
        have hkernel : mv₁.kernel = true := hsame.kernel
        exact ⟨hsame.graph, by simp [Move.because, hnot, hkernel],
          by simp [Move.because, hnot, hsame.deferred], hsame.regionLoop, hsame.stop⟩
  · rw [if_pos hok]
    -- One of the moves is out, and nothing is deferred.
    obtain ⟨mv₂, hmv₂, hsame₂⟩ : ∃ mv₂, (if ¬kernelOk = true then mv₁.because .kernelOut else mv₁) =
        mv₂ ∧ SameButReasons mv₁ mv₂ := by
      refine ⟨_, rfl, ?_⟩
      split_ifs
      · exact ⟨rfl, rfl, rfl, rfl, rfl⟩
      · exact ⟨rfl, rfl, rfl, rfl, rfl⟩
    rw [hmv₂]
    constructor
    case graph => exact hsame₂.graph.trans hsame.graph
    case kernel =>
      rw [hsame₂.kernel, hsame.kernel]
      exact ⟨fun hk => ⟨hk, fun hg => hok ⟨hk, hg.1⟩⟩, And.left⟩
    case deferred =>
      rw [hsame₂.deferred, hsame.deferred]
      exact ⟨.inl, fun h => h.resolve_right fun hg => hok ⟨hg.1, hg.2.1⟩⟩
    case regionLoop => exact hsame₂.regionLoop.trans hsame.regionLoop
    case stop => exact hsame₂.stop.trans hsame.stop

/-- What the policy picks. -/
structure PickSpec (c : Controller) (f : Features) (hist : List Record) (mv : Move) : Prop where
  kernel : mv.kernel = true → c.stopped hist .kernel = none
  graph : mv.graph = true → c.stopped hist .graph = none
  regionLoop : mv.regionLoop = false
  stop : mv.stop = false
  deferred : mv.deferred = true → mv.kernel = false ∧ mv.graph = true
  /-- Under `auto`, the kernel move is held back only if the graph move is on. -/
  auto : c.policy = .auto → c.stopped hist .kernel = none →
    (mv.kernel = false ↔ c.stopped hist .graph = none ∧ 0 < f.candidates.estGain ∧
      Defers c f hist) ∧ (mv.deferred = true ↔ mv.kernel = false)

theorem pickSpec_auto (hpolicy : c.policy ≠ .fixed) (mv : Move) (hloop : mv.regionLoop = false)
    (hstop : mv.stop = false) (hdeferred : mv.deferred = false) (f : Features) (hist : List Record)
    :
    PickSpec c f hist (c.auto mv f hist (c.stopped hist .kernel).isNone
      (Decidable.decide ((c.stopped hist .graph).isNone ∧
        (0 < f.candidates.estGain ∨ c.policy = .fixed)))) := by
  have hspec := @auto_spec c mv f hist (c.stopped hist .kernel).isNone
    (Decidable.decide ((c.stopped hist .graph).isNone ∧
      (0 < f.candidates.estGain ∨ c.policy = .fixed)))
  have hgraph : Decidable.decide ((c.stopped hist .graph).isNone ∧
      (0 < f.candidates.estGain ∨ c.policy = .fixed)) = true ↔
        c.stopped hist .graph = none ∧ 0 < f.candidates.estGain := by
    rw [decide_eq_true_iff, Option.isNone_iff_eq_none, or_iff_left hpolicy]
  constructor
  case kernel =>
    intro h
    exact Option.isNone_iff_eq_none.mp (hspec.kernel.mp h).1
  case graph =>
    intro h
    rw [hspec.graph] at h
    exact (hgraph.mp h).1
  case regionLoop => exact hspec.regionLoop.trans hloop
  case stop => exact hspec.stop.trans hstop
  case deferred =>
    intro h
    obtain hbefore | ⟨-, hgraphOk, hdefers⟩ := hspec.deferred.mp h
    · rw [hdeferred] at hbefore
      cases hbefore
    · refine ⟨Bool.eq_false_iff.mpr fun hkernel => ?_, hspec.graph.trans hgraphOk⟩
      exact (hspec.kernel.mp hkernel).2 ⟨hgraphOk, hdefers⟩
  case auto =>
    intro _ hkernel
    have hkernelOk : (c.stopped hist .kernel).isNone = true := Option.isNone_iff_eq_none.mpr hkernel
    constructor
    · rw [Bool.eq_false_iff, ne_eq, hspec.kernel, hgraph, and_assoc]
      simp only [hkernelOk, true_and, not_not]
    · rw [hspec.deferred, Bool.eq_false_iff, ne_eq, hspec.kernel, hdeferred]
      simp only [hkernelOk, Bool.false_eq_true, false_or, true_and, not_not]

theorem pick_spec (f : Features) (hist : List Record) : PickSpec c f hist (c.pick f hist) := by
  rw [pick]
  cases hpolicy : c.policy with
  | fixed =>
    refine ⟨fun h => ?_, fun h => ?_, rfl, rfl, fun h => ?_, fun h => ?_⟩
    · simpa [Move.because] using h
    · simpa [Move.because] using h
    · cases h
    · cases hpolicy.symm.trans h
  | graphFirst =>
    dsimp only
    split
    next hfirst =>
      refine ⟨fun h => ?_, fun h => ?_, rfl, rfl, fun _ => ⟨rfl, hfirst.2.1.1⟩, fun h => ?_⟩
      · cases h
      · simpa [Move.because] using h
      · cases hpolicy.symm.trans h
    next =>
      refine ⟨fun h => ?_, fun h => ?_, rfl, rfl, fun h => ?_, fun h => ?_⟩
      · simpa [Move.because] using h
      · simpa [Move.because] using h
      · cases h
      · cases hpolicy.symm.trans h
  | auto =>
    have h := @pickSpec_auto c (by rw [hpolicy]; decide)
      ⟨true, true, false, false, false, moves.filterMap (c.stopped hist), f⟩ rfl rfl rfl f hist
    rw [hpolicy] at h
    exact h
  | off =>
    have h := @pickSpec_auto c (by rw [hpolicy]; decide)
      ⟨true, true, false, false, false, moves.filterMap (c.stopped hist), f⟩ rfl rfl rfl f hist
    rw [hpolicy] at h
    exact h

/-- What the region loop adds to a move. -/
structure LoopSpec (c : Controller) (hist : List Record) (mv mv' : Move) : Prop where
  kernel : mv'.kernel = mv.kernel
  graph : mv'.graph = mv.graph
  stop : mv'.stop = mv.stop
  deferred : mv'.deferred = mv.deferred
  regionLoop : mv'.regionLoop = true → c.stopped hist .regionLoop = none

theorem withRegionLoop_spec (rlActive : Bool) (f : Features) (hist : List Record) {mv : Move}
    (hloop : mv.regionLoop = false) :
    LoopSpec c hist mv (c.withRegionLoop rlActive f hist mv) := by
  rw [withRegionLoop]
  split
  · cases hstopped : c.stopped hist .regionLoop with
    | some why =>
      exact ⟨rfl, rfl, rfl, rfl, fun h => absurd (hloop.symm.trans h) Bool.false_ne_true⟩
    | none =>
      dsimp only
      split_ifs
      all_goals exact ⟨rfl, rfl, rfl, rfl, fun _ => hstopped⟩
  · exact ⟨rfl, rfl, rfl, rfl, fun h => absurd (hloop.symm.trans h) Bool.false_ne_true⟩

/-- What a decision is. -/
structure DecideSpec (c : Controller) (f : Features) (hist : List Record) (mv : Move) : Prop where
  enables : ∀ m, mv.enables m = true → c.stopped hist m = none
  stop : mv.stop = true ↔ mv.kernel = false ∧ mv.graph = false
  deferred : mv.deferred = true → mv.kernel = false ∧ mv.graph = true
  auto : c.policy = .auto → c.stopped hist .kernel = none →
    (mv.kernel = false ↔ c.stopped hist .graph = none ∧ 0 < f.candidates.estGain ∧
      Defers c f hist) ∧ (mv.deferred = true ↔ mv.kernel = false)

theorem decide_spec (rlActive : Bool) (f : Features) (hist : List Record) :
    DecideSpec c f hist (c.decide rlActive f hist) := by
  have hpick := @pick_spec c f hist
  obtain ⟨hkernel, hgraph, hstop, hdeferred, hloop⟩ :=
    @withRegionLoop_spec c rlActive f hist _ hpick.regionLoop
  rw [decide]
  rw [withStop]
  split_ifs with hnone
  · constructor
    case enables =>
      intro m h
      cases m with
      | kernel => exact absurd h hnone.1
      | graph => exact absurd h hnone.2
      | regionLoop => cases h
    case stop =>
      exact ⟨fun _ => ⟨Bool.eq_false_iff.mpr hnone.1, Bool.eq_false_iff.mpr hnone.2⟩, fun _ => rfl⟩
    case deferred =>
      intro h
      obtain ⟨-, hg⟩ := hpick.deferred (hdeferred.symm.trans h)
      exact absurd (hgraph.trans hg) hnone.2
    case auto =>
      intro hpolicy hk
      have hauto := hpick.auto hpolicy hk
      rw [← hkernel, ← hdeferred] at hauto
      exact hauto
  · constructor
    case enables =>
      intro m h
      cases m with
      | kernel => exact hpick.kernel (hkernel.symm.trans h)
      | graph => exact hpick.graph (hgraph.symm.trans h)
      | regionLoop => exact hloop h
    case stop =>
      rw [hstop, hpick.stop]
      refine ⟨fun h => absurd h Bool.false_ne_true, fun h => absurd ⟨?_, ?_⟩ hnone⟩
      · rw [h.1]
        decide
      · rw [h.2]
        decide
    case deferred =>
      intro h
      rw [hkernel, hgraph]
      exact hpick.deferred (hdeferred.symm.trans h)
    case auto =>
      intro hpolicy hk
      rw [hkernel, hdeferred]
      exact hpick.auto hpolicy hk

/-! ### The guard -/

variable {m : MoveName} {hist : List Record} {r : Record} {mv : Move}

/-- A stopped move does not work in the next round. -/
theorem hasWorked_round (h : c.stopped hist m ≠ none) (i : RoundInput) :
    (c.round hist i).hasWorked m = false := by
  rw [round]
  cases c.preStop hist i.spentUsd with
  | some why => rfl
  | none =>
    have hspec := @decide_spec c i.rlActive (c.featuresOf hist i) hist
    dsimp only
    split_ifs
    · rfl
    · have hoff : (c.decide i.rlActive (c.featuresOf hist i) hist).enables m = false :=
        Bool.eq_false_iff.mpr fun hon => h (hspec.enables m hon)
      cases m with
      | kernel => exact (congrArg (· && _) hoff).trans (Bool.false_and _)
      | graph => exact (congrArg (· && _) hoff).trans (Bool.false_and _)
      | regionLoop => exact (congrArg (· && _) hoff).trans (Bool.false_and _)

/-- The guard reads rounds only in which the move has worked. -/
theorem stopped_concat (hr : r.hasWorked m = false) :
    c.stopped (hist ++ [r]) m = c.stopped hist m := by
  have hgains : lastGains (hist ++ [r]) m = lastGains hist m := by
    rw [lastGains, lastGains, filter_append, filter_cons_of_neg (by rw [hr]; decide),
      filter_nil, append_nil]
  rw [stopped, stopped, hgains]

/-- A stopped move stays stopped for the same reason. -/
theorem stopped_records {events later : List Event} (h : c.stopped (c.records kh events) m ≠ none) :
    c.stopped (c.records kh (events ++ later)) m = c.stopped (c.records kh events) m := by
  induction later using reverseRecOn with
  | nil => rw [append_nil]
  | append_singleton later e ih =>
    rw [← append_assoc, records_concat]
    cases e with
    | own i =>
      rw [recorded, stopped_concat (hasWorked_round (ih ▸ h) i), ih]
    | other key rec => rw [recorded, append_nil, ih]

/-- Once the guard has stopped a move, it has stopped it in every later round of the configuration,
and the move is not enabled again. A round is a stop exactly if neither the kernel nor the graph move
is enabled. -/
theorem guard_permanent (c : Controller) (kh : String) (events later : List Event) :
    (∀ m, c.stopped (c.records kh events) m ≠ none →
      c.stopped (c.records kh (events ++ later)) m ≠ none ∧
        ∀ rlActive f, (c.decide rlActive f (c.records kh (events ++ later))).enables m = false) ∧
    ∀ rlActive f, (c.decide rlActive f (c.records kh events)).stop = true ↔
      (c.decide rlActive f (c.records kh events)).kernel = false ∧
        (c.decide rlActive f (c.records kh events)).graph = false := by
  refine ⟨fun m h => ?_, fun rlActive f => (decide_spec rlActive f _).stop⟩
  have hstopped : c.stopped (c.records kh (events ++ later)) m ≠ none := by
    rw [stopped_records h]
    exact h
  refine ⟨hstopped, fun rlActive f => Bool.eq_false_iff.mpr fun hon => hstopped ?_⟩
  exact (decide_spec rlActive f _).enables m hon

/-- A round with a region hint, which is accepted and takes a fifth of the time away. No kernel gets
faster. -/
def regionRound (rlActive : Bool) : RoundInput where
  rlActive := rlActive
  roundsLeft := 3
  profiles := [[⟨"conv", 100⟩]]
  hints := [⟨"h0", "fuse_region", [some 10]⟩]
  minGainPct := 1
  spentUsd := 0
  outcome :=
    { partitionUs := [100]
      kbRuns := [⟨100, 100, true⟩]
      decisions := [⟨"h0", true, some 100, some 80⟩]
      kinds := [("h0", "fuse_region")]
      planProblems := 1 }
  spentAfterUsd := 0

/-- A controller with the default minimum gain and without a budget. -/
def unbudgeted (policy : Policy) : Controller := ⟨policy, 3 / 100, 0, 15, fun _ => "elementwise"⟩

/-- Two rounds of kernel steps without a gain stop the kernel move for good. -/
theorem guard_permanent_fixed :
    (unbudgeted .fixed).stopped ((unbudgeted .fixed).records "k"
      ([.own (regionRound true), .own (regionRound true)] ++ [.own (regionRound false)])) .kernel ≠
        none :=
  ((guard_permanent (unbudgeted .fixed) "k" [.own (regionRound true), .own (regionRound true)]
    [.own (regionRound false)]).1 .kernel (by decide +kernel)).1

/-! ### Deferred rounds -/

/-- Kernel tuning is not deferred twice in a row: after a round that defers it, the next round that
is not a stop tunes kernels, unless the guard has stopped that. -/
def Alternates (c : Controller) (hist : List Record) : Prop :=
  ∀ before d mid r after, hist = before ++ d :: (mid ++ r :: after) → d.deferred = true →
    (∀ x ∈ mid, x.stop = true) → r.stop = false →
      r.kernel = true ∨ c.stopped (before ++ d :: mid) .kernel ≠ none

/-- The round before has deferred kernel tuning and has run the region loop, and its graph gain
dominates. All that a graph-only round takes is there again. -/
structure Overlooked (c : Controller) (hist : List Record) (i : RoundInput) : Prop where
  deferring : ∃ d g, hist.getLast? = some d ∧ d.deferred = true ∧ d.regionLoop = true ∧
    d.gain = some g ∧ c.dominates (g.kernelPct, roundTo 3 (g.graphPct + g.regionPct)) = true
  budget : ¬(c.budgetUsd ≠ 0 ∧ c.budgetUsd ≤ i.spentUsd)
  kernel : c.stopped hist .kernel = none
  graph : c.stopped hist .graph = none
  candidates : 0 < (candidateClasses i.hints i.minGainPct).estGain

/-- What a record says. -/
structure SoundRecord (d : Record) : Prop where
  gain : d.stop = true → d.gain = none
  deferred : d.deferred = true → d.kernel = false ∧ d.graph = true ∧ d.stop = false
  /-- The label of a graph-only round is that of the graph move alone, if the region loop is off. -/
  move : d.deferred = true → (d.move = "graph" ↔ d.regionLoop = false)

theorem label_eq_graph_iff (hstop : mv.stop = false) (hkernel : mv.kernel = false)
    (hgraph : mv.graph = true) : mv.label = "graph" ↔ mv.regionLoop = false := by
  rw [Move.label, hstop, hkernel, hgraph]
  cases mv.regionLoop with
  | false => decide
  | true => decide

theorem sound_toDict {f : Features} (h : DecideSpec c f hist mv) (policy : Policy) :
    SoundRecord (mv.toDict policy) := by
  have hstop : mv.deferred = true → mv.stop = false := by
    intro hdeferred
    refine Bool.eq_false_iff.mpr fun hon => ?_
    exact absurd ((h.stop.mp hon).2.symm.trans (h.deferred hdeferred).2) Bool.false_ne_true
  constructor
  case gain => exact fun _ => rfl
  case deferred =>
    exact fun hd => ⟨(h.deferred hd).1, (h.deferred hd).2, hstop hd⟩
  case move =>
    exact fun hd => label_eq_graph_iff (hstop hd) (h.deferred hd).1 (h.deferred hd).2

/-- What a round is, if it is not a stop. -/
theorem round_eq {i : RoundInput} (h : (c.round hist i).stop = false) :
    c.preStop hist i.spentUsd = none ∧
      (c.decide i.rlActive (c.featuresOf hist i) hist).stop = false ∧
      c.round hist i = endRound (c.begin (c.decide i.rlActive (c.featuresOf hist i) hist))
        i.outcome i.spentAfterUsd := by
  rw [round] at h ⊢
  cases hpre : c.preStop hist i.spentUsd with
  | some why =>
    rw [hpre] at h
    cases h
  | none =>
    rw [hpre] at h
    by_cases hstop : (c.decide i.rlActive (c.featuresOf hist i) hist).stop = true
    · rw [if_pos hstop] at h
      exact absurd (hstop.symm.trans h) Bool.false_ne_true.symm
    · rw [if_neg hstop]
      exact ⟨rfl, Bool.eq_false_iff.mpr hstop, rfl⟩

theorem sound_round (hist : List Record) (i : RoundInput) : SoundRecord (c.round hist i) := by
  have hspec := @decide_spec c i.rlActive (c.featuresOf hist i) hist
  by_cases hstop : (c.round hist i).stop = false
  · obtain ⟨-, hgo, heq⟩ := round_eq hstop
    have hsound := sound_toDict hspec c.policy
    rw [heq]
    exact ⟨fun h => absurd (hgo.symm.trans h) Bool.false_ne_true, hsound.deferred, hsound.move⟩
  · rw [round] at hstop ⊢
    cases hpre : c.preStop hist i.spentUsd with
    | some why => exact ⟨fun _ => rfl, fun h => absurd h Bool.false_ne_true,
        fun h => absurd h Bool.false_ne_true⟩
    | none =>
      rw [hpre] at hstop
      by_cases hmv : (c.decide i.rlActive (c.featuresOf hist i) hist).stop = true
      · rw [if_pos hmv]
        exact sound_toDict hspec c.policy
      · rw [if_neg hmv] at hstop
        exact absurd (Bool.eq_false_iff.mpr hmv) hstop

theorem sound_records (events : List Event) : ∀ d ∈ c.records kh events, SoundRecord d := by
  apply records_induction (P := fun hist => ∀ d ∈ hist, SoundRecord d)
  · exact fun d hd => absurd hd not_mem_nil
  · intro hist i ih d hd
    rcases mem_append.mp hd with hd | hd
    · exact ih d hd
    · rw [mem_singleton.mp hd]
      exact sound_round hist i

/-- What a round adds. -/
theorem alternates_concat :
    Alternates c (hist ++ [r]) ↔ Alternates c hist ∧
      ∀ before d mid, hist = before ++ d :: mid → d.deferred = true → (∀ x ∈ mid, x.stop = true) →
        r.stop = false → r.kernel = true ∨ c.stopped hist .kernel ≠ none := by
  constructor
  · intro h
    refine ⟨fun before d mid r' after hsplit => ?_, fun before d mid hsplit => ?_⟩
    · apply h before d mid r' (after ++ [r])
      rw [hsplit]
      simp
    · rw [hsplit]
      apply h before d mid r []
      rw [hsplit]
      simp
  · rintro ⟨hbefore, hlast⟩ before d mid r' after hsplit hd hmid hr
    rcases eq_nil_or_concat after with rfl | ⟨after, x, rfl⟩
    · have hsplit' : hist ++ [r] = (before ++ d :: mid) ++ [r'] := by
        rw [hsplit]
        simp
      obtain ⟨hhist, hr'⟩ := append_inj' hsplit' rfl
      cases hr'
      rw [← hhist]
      exact hlast before d mid hhist hd hmid hr
    · have hsplit' : hist ++ [r] = (before ++ d :: (mid ++ r' :: after)) ++ [x] := by
        rw [hsplit]
        simp
      exact hbefore before d mid r' after (append_inj' hsplit' rfl).1 hd hmid hr

/-- The next round after a deferring one tunes kernels, unless the deferring one is overlooked. -/
theorem round_alternates_iff (hauto : c.policy = .auto) (hsound : ∀ d ∈ hist, SoundRecord d)
    (i : RoundInput) :
    (∀ before d mid, hist = before ++ d :: mid → d.deferred = true → (∀ x ∈ mid, x.stop = true) →
      (c.round hist i).stop = false →
        (c.round hist i).kernel = true ∨ c.stopped hist .kernel ≠ none) ↔
      ¬Overlooked c hist i := by
  have hspec := @decide_spec c i.rlActive (c.featuresOf hist i) hist
  constructor
  · rintro h ⟨⟨d, g, hlast, hd, hloop, hgain, hdom⟩, hbudget, hkernel, hgraph, hcandidates⟩
    obtain ⟨before, rfl⟩ := getLast?_eq_some_iff.mp hlast
    have hdefers : Defers c (c.featuresOf (before ++ [d]) i) (before ++ [d]) := by
      refine .inr ⟨_, ?_, hdom, ?_⟩
      · show ((before ++ [d]).getLast?.bind Record.gain).map _ = _
        rw [hlast, Option.bind_some, hgain]
        rfl
      · rw [prevGraphOnly, hlast, Option.any_some, decide_eq_false_iff_not,
          (hsound d (by simp)).move hd, hloop]
        decide
    obtain ⟨hoff, hdeferred⟩ := hspec.auto hauto hkernel
    have hnot := hoff.mpr ⟨hgraph, hcandidates, hdefers⟩
    have hgo : ¬(c.decide i.rlActive (c.featuresOf (before ++ [d]) i) (before ++ [d])).stop = true :=
      fun hstop => absurd ((hspec.stop.mp hstop).2.symm.trans
        (hspec.deferred (hdeferred.mpr hnot)).2) Bool.false_ne_true
    have hpre : c.preStop (before ++ [d]) i.spentUsd = none := by
      rw [preStop, if_neg hbudget, hkernel]
    have hround : c.round (before ++ [d]) i =
        endRound (c.begin (c.decide i.rlActive (c.featuresOf (before ++ [d]) i) (before ++ [d])))
          i.outcome i.spentAfterUsd := by
      rw [round, hpre]
      exact if_neg hgo
    rcases h before d [] rfl hd (fun x hx => absurd hx not_mem_nil)
      (by rw [hround]; exact Bool.eq_false_iff.mpr hgo) with hon | hstopped
    · rw [hround] at hon
      exact absurd (hnot.symm.trans hon) Bool.false_ne_true
    · exact hstopped hkernel
  · intro hnot before d mid hsplit hd hmid hstop
    by_contra hcon
    rw [not_or, not_not, Bool.not_eq_true] at hcon
    obtain ⟨hoff, hkernel⟩ := hcon
    obtain ⟨hpre, -, hround⟩ := round_eq hstop
    rw [hround] at hoff
    obtain ⟨hgraph, hcandidates, hdefers⟩ := (hspec.auto hauto hkernel).1.mp hoff
    -- The round is not the first one, so that the last gains dominate.
    obtain ⟨hfirst, -⟩ | ⟨last, hlast, hdom, hprev⟩ := hdefers
    · change hist.isEmpty = true at hfirst
      rw [hsplit] at hfirst
      cases before with
      | nil => cases hfirst
      | cons x xs => cases hfirst
    · change (hist.getLast?.bind Record.gain).map _ = some last at hlast
      obtain ⟨g, hg, rfl⟩ := Option.map_eq_some_iff.mp hlast
      obtain ⟨x, hx, hgain⟩ := Option.bind_eq_some_iff.mp hg
      rcases eq_nil_or_concat mid with rfl | ⟨mid, y, rfl⟩
      · obtain rfl : d = x := by
          rw [hsplit, getLast?_append] at hx
          exact Option.some.inj hx
        have hmem : d ∈ hist := mem_of_getLast? hx
        rw [prevGraphOnly, hx, Option.any_some, decide_eq_false_iff_not,
          (hsound d hmem).move hd] at hprev
        refine hnot ⟨⟨d, g, hx, hd, Bool.not_eq_false _ ▸ hprev, hgain, hdom⟩, fun hbudget => ?_,
          hkernel, hgraph, hcandidates⟩
        rw [preStop, if_pos hbudget] at hpre
        cases hpre
      · -- A stop has no gain.
        obtain rfl : y = x := by
          have hlist : hist = (before ++ d :: mid) ++ [y] := by
            rw [hsplit]
            simp
          rw [hlist, getLast?_append] at hx
          exact Option.some.inj hx
        have hnone := (hsound y (mem_of_getLast? hx)).gain (hmid y (by simp))
        rw [hnone] at hgain
        cases hgain

/-- Under `auto`, kernel tuning is deferred twice in a row if and only if a round comes up that
overlooks that the one before was graph-only. -/
theorem alternates_iff (c : Controller) (hauto : c.policy = .auto) (kh : String)
    (events : List Event) : Alternates c (c.records kh events) ↔
      ∀ before i after, events = before ++ .own i :: after →
        ¬Overlooked c (c.records kh before) i := by
  induction events using reverseRecOn with
  | nil =>
    refine iff_of_true (fun before d mid r after h => ?_) fun before i after h => ?_
    · cases before with
      | nil => cases h
      | cons x xs => cases h
    · cases before with
      | nil => cases h
      | cons x xs => cases h
  | append_singleton events e ih =>
    have hsplit : (∀ before i after, events ++ [e] = before ++ .own i :: after →
        ¬Overlooked c (c.records kh before) i) ↔
          (∀ before i after, events = before ++ .own i :: after →
            ¬Overlooked c (c.records kh before) i) ∧
          ∀ i, e = .own i → ¬Overlooked c (c.records kh events) i := by
      constructor
      · refine fun h => ⟨fun before i after hb => ?_, fun i he => ?_⟩
        · apply h before i (after ++ [e])
          rw [hb]
          simp
        · exact h events i [] (by rw [he])
      · rintro ⟨hbefore, hlast⟩ before i after hb
        rcases eq_nil_or_concat after with rfl | ⟨after, x, rfl⟩
        · obtain ⟨rfl, he⟩ := append_inj' hb rfl
          cases he
          exact hlast i rfl
        · have hb' : events ++ [e] = (before ++ .own i :: after) ++ [x] := by
            rw [hb]
            simp
          exact hbefore before i after (append_inj' hb' rfl).1
    rw [hsplit, ← ih, records_concat]
    cases e with
    | own i =>
      rw [recorded, alternates_concat, round_alternates_iff hauto (sound_records events)]
      refine and_congr_right fun _ => ⟨fun h i' hi' => ?_, fun h => h i rfl⟩
      cases hi'
      exact h
    | other key rec =>
      rw [recorded, append_nil]
      exact ⟨fun h => ⟨h, fun i hi => nomatch hi⟩, And.left⟩

/-- Without the region loop, a deferring round is told as one. -/
theorem alternates_iff_region :
    ((unbudgeted .auto).records "k"
      [.own (regionRound false), .own (regionRound false)]).map Record.deferred = [true, false] ∧
    Alternates (unbudgeted .auto)
      ((unbudgeted .auto).records "k" [.own (regionRound false), .own (regionRound false)]) := by
  refine ⟨by decide +kernel, (alternates_iff (unbudgeted .auto) rfl "k" _).mpr ?_⟩
  rintro before i after hsplit ⟨⟨d, g, hlast, -, hloop, -⟩, -⟩
  have hoff : ∀ d ∈ (unbudgeted .auto).records "k" before, d.regionLoop = false := by
    rcases before with _ | ⟨e, _ | ⟨e', before⟩⟩
    · exact fun d hd => absurd hd not_mem_nil
    · cases hsplit
      decide +kernel
    · simp at hsplit
  exact Bool.false_ne_true ((hoff d (mem_of_getLast? hlast)).symm.trans hloop)

/-- With the region loop, the label of the deferring round is "graph+region_loop". The next round is
deferred too. -/
theorem not_alternates_region :
    (unbudgeted .auto).policy = .auto ∧
    ((unbudgeted .auto).records "k"
      [.own (regionRound true), .own (regionRound true)]).map Record.deferred = [true, true] ∧
    ¬Alternates (unbudgeted .auto)
      ((unbudgeted .auto).records "k" [.own (regionRound true), .own (regionRound true)]) := by
  refine ⟨rfl, by decide +kernel, fun h => ?_⟩
  have hrecords : (unbudgeted .auto).records "k"
      ([] ++ [.own (regionRound true)] ++ [.own (regionRound true)]) =
        [(unbudgeted .auto).round [] (regionRound true),
          (unbudgeted .auto).round [(unbudgeted .auto).round [] (regionRound true)]
            (regionRound true)] := by
    rw [records_concat, records_concat]
    rfl
  rcases h [] _ [] _ [] hrecords (by decide +kernel) (by decide) (by decide +kernel) with
    hkernel | hstopped
  · revert hkernel
    decide +kernel
  · revert hstopped
    decide +kernel

end Controller

end ModelBlaster.RoundController

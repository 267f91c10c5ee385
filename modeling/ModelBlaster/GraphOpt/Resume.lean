import Mathlib.Data.List.Perm.Basic
import Mathlib.Data.List.GetD
import ModelBlaster.Library.PyDict
import Mathlib.Data.List.Sort

/-!
# Resumed decisions

A round decides its candidates wave after wave, and writes two files after each: the hints file,
then `progress.json`. A process that dies leaves what it has written; the next one goes on from
there.

## Main definitions

* `Footprint`, `conflicts`: what deciding a hint reads and writes;
* `schedule`: the waves;
* `Hint`: a record of the hints file;
* `recordDecision`: a decision more;
* `finishHint`: the decision on a hint, from what was measured;
* `Disk`: the two files;
* `attempt`: the writes of a process, and its decisions if it lives long enough;
* `resumed`: the files after processes that died;
* `NoneTorn`: no process dies there;
* `DecidedOnce`: what is asked of a round.

## Main results

* `schedule_spec`: every hint is in one wave, waves are no wider than allowed, and hints in conflict
  are in waves in their order;
* `decidedOnce_iff`: a round decides its candidates once if and only if no process dies there.
-/

/-! ## Waves of hints -/

namespace ModelBlaster.GraphOpt

open List

/-! ### Conflicts -/

/-- What deciding a hint reads and writes of the shared state. -/
structure Footprint where
  /-- The ops that the problems of the hint hold, each with its IR. -/
  ops : List (String × String)
  /-- The cache entries that the problems are seeded from. -/
  reads : List String
  /-- The cache entries that an acceptance ingests. -/
  writes : List String
deriving DecidableEq, Repr

/-- Two sets with a common element. -/
def meets {α : Type} [DecidableEq α] (xs ys : List α) : Bool := xs.any (· ∈ ys)

/-- Deciding one of the hints can change what the other one is decided on. -/
def conflicts (a b : Footprint) : Bool :=
  meets a.ops b.ops || meets a.writes b.reads || meets b.writes a.reads

/-! ### Waves -/

/-- `waves` and `wave_of` -/
structure WaveState where
  waves : List (List ℕ)
  waveOf : List ℕ
deriving DecidableEq, Repr

/-- The first wave from `w` on with room, or a new one. -/
def firstRoom (width : ℕ) (waves : List (List ℕ)) (w : ℕ) : ℕ :=
  ((List.range' w (waves.length - w)).find? fun v => (waves.getD v []).length < width).getD
    (max w waves.length)

/-- The first wave after those of the earlier hints in conflict with a hint. -/
def afterConflicts (fps : List Footprint) (waveOf : List ℕ) (f : Footprint) : ℕ :=
  ((List.zip fps waveOf).filter fun e => conflicts e.1 f).foldl (fun w e => max w (e.2 + 1)) 0

/-- A hint is put in its wave. -/
def waveStep (fps : List Footprint) (width : ℕ) (st : WaveState) (e : Footprint × ℕ) : WaveState :=
  let w := firstRoom width st.waves (afterConflicts fps st.waveOf e.1)
  { waves := (st.waves ++ List.replicate (w + 1 - st.waves.length) []).modify w (· ++ [e.2])
    waveOf := st.waveOf ++ [w] }

/-- `schedule` -/
def schedule (fps : List Footprint) (width : ℕ) : List (List ℕ) :=
  (fps.zipIdx.foldl (waveStep fps (max 1 width)) ⟨[], []⟩).waves

/-! ### What the waves are -/

variable {α : Type} {w n width : ℕ} {waveOf : List ℕ} {fps : List Footprint}

theorem perm_flatten_modify (l : List (List α)) (hw : w < l.length) (x : α) :
    (l.modify w (· ++ [x])).flatten.Perm (l.flatten ++ [x]) := by
  induction l generalizing w with
  | nil => exact absurd hw (Nat.not_lt_zero w)
  | cons y rest ih =>
    cases w with
    | zero =>
      rw [modify_zero_cons, flatten_cons, flatten_cons, append_assoc, append_assoc]
      exact perm_append_comm.append_left y
    | succ w =>
      rw [modify_succ_cons, flatten_cons, flatten_cons, append_assoc]
      exact (ih (Nat.lt_of_succ_lt_succ hw)).append_left y

theorem getD_modify_nil (l : List (List α)) (hw : w < l.length) (f : List α → List α) (v : ℕ) :
    (l.modify w f).getD v [] = if v = w then f (l.getD v []) else l.getD v [] := by
  by_cases hv : w = v
  · subst hv
    simp [getElem?_eq_getElem hw]
  · rw [if_neg fun h => hv h.symm]
    simp [hv]

/-- A hint comes after the earlier ones in conflict with it. -/
theorem lt_afterConflicts {f g : Footprint} {j : ℕ} (hg : fps[j]? = some g)
    (hw : waveOf[j]? = some w) (hconf : conflicts g f = true) :
    w < afterConflicts fps waveOf f := by
  have hmem : (g, w) ∈ (List.zip fps waveOf).filter fun e => conflicts e.1 f :=
    mem_filter.mpr ⟨mem_of_getElem? (getElem?_zip_eq_some.mpr ⟨hg, hw⟩), hconf⟩
  rw [afterConflicts]
  generalize (List.zip fps waveOf).filter (fun e => conflicts e.1 f) = l at hmem
  have hmono : ∀ (l : List (Footprint × ℕ)) (a : ℕ),
      a ≤ l.foldl (fun w e => max w (e.2 + 1)) a := by
    intro l
    induction l with
    | nil => exact fun a => Nat.le_refl a
    | cons e rest ih =>
      intro a
      exact Nat.le_trans (Nat.le_max_left a (e.2 + 1)) (ih _)
  have hall : ∀ (l : List (Footprint × ℕ)) (a : ℕ), (g, w) ∈ l →
      w < l.foldl (fun w e => max w (e.2 + 1)) a := by
    intro l
    induction l with
    | nil => exact fun a h => absurd h not_mem_nil
    | cons e rest ih =>
      intro a hmem
      rcases mem_cons.mp hmem with rfl | hmem
      · have hle : w + 1 ≤ max a (w + 1) := Nat.le_max_right a (w + 1)
        exact Nat.lt_of_succ_le (Nat.le_trans hle (hmono _ _))
      · exact ih _ hmem
  exact hall l 0 hmem

theorem afterConflicts_le (h : ∀ w ∈ waveOf, w < n) (f : Footprint) :
    afterConflicts fps waveOf f ≤ n := by
  have hall : ∀ (l : List (Footprint × ℕ)) (a : ℕ), a ≤ n → (∀ e ∈ l, e.2 < n) →
      l.foldl (fun w e => max w (e.2 + 1)) a ≤ n := by
    intro l
    induction l with
    | nil => exact fun a ha _ => ha
    | cons e rest ih =>
      intro a ha hl
      exact ih _ (Nat.max_le.mpr ⟨ha, hl e mem_cons_self⟩)
        fun e' he' => hl e' (mem_cons_of_mem e he')
  apply hall _ _ (Nat.zero_le n)
  intro e he
  exact h e.2 (of_mem_zip (mem_of_mem_filter he)).2

/-- The wave that is found has room, and is the next one if no other has. -/
theorem firstRoom_spec (width : ℕ) {waves : List (List ℕ)} (hw : w ≤ waves.length) :
    w ≤ firstRoom width waves w ∧ firstRoom width waves w ≤ waves.length ∧
      (firstRoom width waves w < waves.length →
        (waves.getD (firstRoom width waves w) []).length < width) := by
  rw [firstRoom]
  cases hfind : (List.range' w (waves.length - w)).find? fun v =>
      (waves.getD v []).length < width with
  | some v =>
    have hroom := find?_some hfind
    obtain ⟨hle, hlt⟩ := mem_range'_1.mp (mem_of_find?_eq_some hfind)
    exact ⟨hle, by rw [Option.getD_some]; omega, fun _ => of_decide_eq_true hroom⟩
  | none =>
    rw [Option.getD_none, Nat.max_eq_right hw]
    exact ⟨hw, Nat.le_refl _, fun h => absurd h (Nat.lt_irrefl _)⟩

/-- What is known of the waves of the first hints. -/
structure WaveState.Spec (fps : List Footprint) (width n : ℕ) (st : WaveState) : Prop where
  length : st.waveOf.length = n
  mem : ∀ w (i : ℕ), i ∈ st.waves.getD w [] ↔ st.waveOf[i]? = some w
  perm : st.waves.flatten.Perm (List.range n)
  room : ∀ l ∈ st.waves, l.length ≤ width
  nonempty : ∀ l ∈ st.waves, l ≠ []
  order : ∀ (i j : ℕ) f g, i < j → fps[i]? = some f → fps[j]? = some g → conflicts f g = true →
    ∀ w : ℕ, st.waveOf[j]? = some w → ∃ v, st.waveOf[i]? = some v ∧ v < w

theorem WaveState.Spec.wave_lt {st : WaveState} (h : st.Spec fps width n) {i : ℕ}
    (hi : st.waveOf[i]? = some w) : w < st.waves.length := by
  by_contra hw
  have hmem := (h.mem w i).mpr hi
  rw [getD_eq_getElem?_getD, getElem?_eq_none (Nat.le_of_not_lt hw)] at hmem
  exact not_mem_nil hmem

theorem WaveState.Spec.step {fps : List Footprint} {width n : ℕ} {st : WaveState}
    (hwidth : 0 < width) (h : st.Spec fps width n) {f : Footprint} (hf : fps[n]? = some f) :
    (waveStep fps width st (f, n)).Spec fps width (n + 1) := by
  have hafter : afterConflicts fps st.waveOf f ≤ st.waves.length := by
    apply afterConflicts_le
    intro w hw
    obtain ⟨i, hi⟩ := mem_iff_getElem?.mp hw
    exact h.wave_lt hi
  obtain ⟨hle, hlen, hroom⟩ := firstRoom_spec width hafter
  generalize hw : firstRoom width st.waves (afterConflicts fps st.waveOf f) = w at hle hlen hroom
  have hstep : waveStep fps width st (f, n) =
      ⟨(st.waves ++ List.replicate (w + 1 - st.waves.length) []).modify w (· ++ [n]),
        st.waveOf ++ [w]⟩ := by
    rw [waveStep, hw]
  have hpad : w < (st.waves ++ List.replicate (w + 1 - st.waves.length) []).length := by
    rw [length_append, length_replicate]
    omega
  have hflat : (st.waves ++ List.replicate (w + 1 - st.waves.length) []).flatten =
      st.waves.flatten := by
    simp
  have hget : ∀ v, (st.waves ++ List.replicate (w + 1 - st.waves.length) []).getD v [] =
      st.waves.getD v [] := by
    intro v
    rcases Nat.lt_or_ge v st.waves.length with hv | hv
    · exact getD_append _ _ _ _ hv
    · rw [getD_append_right _ _ _ _ hv, getD_eq_default _ _ hv,
        getD_eq_getElem?_getD, getElem?_replicate]
      split_ifs <;> rfl
  -- A wave is one of those before, or the one that the hint is put in.
  have hwaves : ∀ l ∈ (st.waves ++ List.replicate (w + 1 - st.waves.length) []).modify w
      (· ++ [n]), l ∈ st.waves ∨ l = st.waves.getD w [] ++ [n] := by
    intro l hl
    obtain ⟨v, hv⟩ := mem_iff_getElem?.mp hl
    have hgetv := getD_modify_nil _ hpad (· ++ [n]) v
    rw [getD_eq_getElem?_getD, hv, Option.getD_some, hget] at hgetv
    by_cases hvw : v = w
    · rw [if_pos hvw] at hgetv
      exact .inr (hvw ▸ hgetv)
    · rw [if_neg hvw] at hgetv
      left
      have hvlen := (List.getElem?_eq_some_iff.mp hv).1
      rw [length_modify, length_append, length_replicate] at hvlen
      have hvlt : v < st.waves.length := by omega
      rw [hgetv, getD_eq_getElem _ _ hvlt]
      exact getElem_mem hvlt
  rw [hstep]
  constructor
  · rw [length_append, h.length, length_singleton]
  · intro v i
    show i ∈ (List.modify _ _ _).getD v [] ↔ (st.waveOf ++ [w])[i]? = some v
    rw [getD_modify_nil _ hpad, hget]
    have hnew : i ∈ st.waves.getD v [] → i < n := fun hi => by
      rw [← h.length]
      exact (List.getElem?_eq_some_iff.mp ((h.mem v i).mp hi)).1
    rcases Nat.lt_trichotomy i n with hlt | rfl | hgt
    · rw [getElem?_append_left (h.length ▸ hlt), ← h.mem]
      split_ifs with hvw
      · rw [mem_append, mem_singleton, or_iff_left (Nat.ne_of_lt hlt)]
      · rfl
    · have hnot : i ∉ st.waves.getD v [] := fun hi => Nat.lt_irrefl i (hnew hi)
      rw [getElem?_append_right (Nat.le_of_eq h.length), h.length, Nat.sub_self]
      by_cases hvw : v = w
      · rw [if_pos hvw]
        simp [hvw]
      · rw [if_neg hvw]
        simp [hnot, Ne.symm hvw, -getD_eq_getElem?_getD]
    · have hnot : i ∉ st.waves.getD v [] := fun hi => Nat.lt_asymm hgt (hnew hi)
      rw [getElem?_eq_none (by rw [length_append, h.length]; exact hgt)]
      split_ifs with hvw
      · simp [hnot, Nat.ne_of_gt hgt, -getD_eq_getElem?_getD]
      · simp [hnot, -getD_eq_getElem?_getD]
  · show (List.modify _ _ _).flatten.Perm _
    rw [range_succ]
    refine (perm_flatten_modify _ hpad n).trans ?_
    rw [hflat]
    exact h.perm.append_right [n]
  · intro l hl
    rcases hwaves l hl with hl | rfl
    · exact h.room l hl
    · rw [length_append, length_singleton]
      rcases Nat.lt_or_ge w st.waves.length with hlt | hge
      · exact hroom hlt
      · rw [getD_eq_default _ _ hge]
        exact hwidth
  · intro l hl
    rcases hwaves l hl with hl | rfl
    · exact h.nonempty l hl
    · exact append_ne_nil_of_right_ne_nil _ (cons_ne_nil n [])
  · intro i j f' g hij hi hj hconf v hv
    have hv' : (st.waveOf ++ [w])[j]? = some v := hv
    show ∃ u, (st.waveOf ++ [w])[i]? = some u ∧ u < v
    have hjn : j < n + 1 := by
      have := (List.getElem?_eq_some_iff.mp hv').1
      rw [length_append, h.length] at this
      exact this
    rw [getElem?_append_left (show i < st.waveOf.length by rw [h.length]; omega)]
    rcases Nat.lt_succ_iff_lt_or_eq.mp hjn with hlt | rfl
    · rw [getElem?_append_left (h.length ▸ hlt)] at hv'
      exact h.order i j f' g hij hi hj hconf v hv'
    · obtain rfl := Option.some.inj (hf.symm.trans hj)
      rw [getElem?_append_right (Nat.le_of_eq h.length), h.length, Nat.sub_self] at hv'
      obtain rfl := Option.some.inj hv'
      obtain ⟨u, hu⟩ : ∃ u, st.waveOf[i]? = some u :=
        ⟨_, getElem?_eq_getElem (h.length ▸ hij)⟩
      exact ⟨u, hu, Nat.lt_of_lt_of_le (lt_afterConflicts hi hu hconf) hle⟩

theorem waveState_spec (fps : List Footprint) (hwidth : 0 < width) (hn : n ≤ fps.length) :
    WaveState.Spec fps width n ((fps.zipIdx.take n).foldl (waveStep fps width) ⟨[], []⟩) := by
  induction n with
  | zero =>
    refine ⟨rfl, fun w i => ?_, .refl _, ?_, ?_, fun i j f g _ _ _ _ w hw => ?_⟩
    · simp
    · intro l hl
      cases hl
    · intro l hl
      cases hl
    · cases hw
  | succ n ih =>
    have hf : fps[n]? = some fps[n] := getElem?_eq_getElem hn
    rw [take_add_one, getElem?_zipIdx, hf, foldl_append]
    simpa using (ih (Nat.le_of_succ_le hn)).step hwidth hf

/-- The waves of `schedule`, and the wave of every hint. -/
theorem schedule_spec (fps : List Footprint) (width : ℕ) :
    ∃ waveOf, WaveState.Spec fps (max 1 width) fps.length ⟨schedule fps width, waveOf⟩ := by
  have hspec := waveState_spec fps (Nat.lt_of_lt_of_le Nat.one_pos (Nat.le_max_left 1 width))
    (Nat.le_refl fps.length)
  rw [take_of_length_le (Nat.le_of_eq length_zipIdx)] at hspec
  exact ⟨_, hspec⟩

end ModelBlaster.GraphOpt

/-! ## Graph hints -/

namespace ModelBlaster.GraphOpt

/-! ### Records -/

/-- The statuses of hints and decisions. -/
inductive Status where
  | proposed
  | accepted
  | rejected
  | undecided
  | infraUnresolved
deriving DecidableEq, Repr

/-- A decision on a hint. -/
structure Evidence where
  decision : Status
  /-- The measurement was lost to the infrastructure. -/
  infra : Bool
deriving DecidableEq, Repr

/-- Where a hint is to be tried, and where it was. -/
structure Scope (α : Type) where
  untried : Option (List α)
  tried : List α
deriving DecidableEq, Repr

/-- An accepted change applies wherever its pattern matches. -/
def Scope.close {α : Type} [DecidableEq α] (s : Scope α) : Scope α where
  untried := none
  tried := (s.untried.getD []).foldl
    (fun tried x => if x ∈ tried then tried else tried ++ [x]) s.tried

/-- A shape group of a split. -/
structure ShapeGroup where
  bucket : String
  ops : List String
deriving DecidableEq, Repr

/-- A record of the hints file. -/
structure Hint where
  id : String
  status : Status
  chains : Scope (List String)
  groups : Scope ShapeGroup
  evidence : List Evidence
deriving DecidableEq, Repr

/-! ### Decisions -/

/-- The status that the evidence gives, if any of it votes. -/
def majority (evidence : List Evidence) : Option Status :=
  let votes := evidence.filter fun x => x.decision = .accepted ∨ x.decision = .rejected
  let wins := (votes.filter fun x => x.decision = .accepted).length
  if votes = [] then none
  else some (if votes.length - wins < wins then .accepted else .rejected)

/-- A hint with a decision more. -/
def Hint.record (h : Hint) (ev : Evidence) : Hint :=
  let evidence := h.evidence ++ [ev]
  match majority evidence with
  | none => { h with evidence := evidence }
  | some .accepted =>
    { h with status := .accepted, chains := h.chains.close, groups := h.groups.close,
             evidence := evidence }
  | some s => { h with status := s, evidence := evidence }

/-- `get` -/
def getHint (doc : List Hint) (hid : String) : Option Hint := doc.find? (·.id = hid)

/-- The first record of an id is changed. -/
def modifyHint (hid : String) (f : Hint → Hint) : List Hint → List Hint
  | [] => []
  | h :: rest => if h.id = hid then f h :: rest else h :: modifyHint hid f rest

/-- `record_decision`: the hints file and the hint's record in it. -/
def recordDecision (doc : List Hint) (hint : Hint) (ev : Evidence) : List Hint × Hint :=
  match getHint doc hint.id with
  | some h => (modifyHint hint.id (·.record ev) doc, h.record ev)
  | none => (doc ++ [hint.record ev], hint.record ev)

/-- `_infra_failures` -/
def infraFailures (h : Hint) : ℕ :=
  (h.evidence.filter fun x => x.decision = .undecided ∧ x.infra).length

/-- What the two problems of a hint were measured to be. -/
inductive Measured where
  /-- There was nothing to run. -/
  | early
  /-- The variant passed the gate, or did not. -/
  | gated (accepted : Bool)
  /-- The measurement was lost to the infrastructure. -/
  | lost
deriving DecidableEq, Repr

/-- What `finish_hint` returns. -/
structure Decision where
  hint : String
  status : Status
  hintStatus : Option Status
deriving DecidableEq, Repr

/-- `finish_hint`: the hints file and the decision. `budget` is the number of re-evaluations of a
hint that was lost to the infrastructure. -/
def finishHint (budget : ℕ) (doc : List Hint) (hint : Hint) (m : Measured) :
    List Hint × Decision :=
  match m with
  | .early => ((recordDecision doc hint ⟨.rejected, false⟩).1, ⟨hint.id, .rejected, none⟩)
  | .gated accepted =>
    let status := if accepted then .accepted else .rejected
    let r := recordDecision doc hint ⟨status, false⟩
    (r.1, ⟨hint.id, status, some r.2.status⟩)
  | .lost =>
    let r := recordDecision doc hint ⟨.undecided, true⟩
    if 0 < budget ∧ budget < infraFailures r.2 then
      (modifyHint hint.id (fun h => { h with status := .infraUnresolved }) r.1,
        ⟨hint.id, .infraUnresolved, some .infraUnresolved⟩)
    else (r.1, ⟨hint.id, .undecided, some r.2.status⟩)

/-- `evaluate_hints`, with the measurements. -/
def evaluateHints (budget : ℕ) (measure : String → Measured) (doc : List Hint) (items : List Hint) :
    List Hint × List Decision :=
  items.foldl (fun st h =>
    let r := finishHint budget st.1 h (measure h.id)
    (r.1, st.2 ++ [r.2])) (doc, [])

/-! ### Files -/

/-- The phase `decide` of `progress.json`. -/
structure DecideState where
  /-- The ids of the candidates. -/
  cands : List String
  waves : List (List ℕ)
  /-- The decisions of the finished waves, by candidate. -/
  decided : PyDict ℕ Decision

/-- The files of a round. -/
structure Disk where
  /-- The hints file. -/
  hints : List Hint
  /-- The phase `decide` of `progress.json`, if there is one. -/
  progress : Option DecideState

/-- A file of a round. -/
inductive RoundFile where
  | hints
  | progress
deriving DecidableEq, Repr

/-! ### One process -/

/-- What does not change from one attempt at a round to the next. -/
structure Round where
  cands : List Hint
  footprint : Hint → Footprint
  width : ℕ
  /-- How often a hint is evaluated again whose measurement was lost. -/
  budget : ℕ
  measure : String → Measured

/-- The ids of the candidates. -/
def Round.ids (r : Round) : List String := r.cands.map Hint.id

/-- The decisions of a wave are added. -/
def DecideState.add (st : DecideState) (w : List ℕ) (ds : List Decision) : DecideState :=
  { st with decided := (w.zip ds).foldl (fun d e => d.set e.1 e.2) st.decided }

/-- The writes of the waves, each with the files after it, and the state at the end. -/
def decideWaves (r : Round) :
    List (List ℕ) → List Hint → DecideState → List (RoundFile × Disk) × DecideState
  | [], _, st => ([], st)
  | w :: ws, hints, st =>
    if w.all (· ∈ st.decided.keys) then decideWaves r ws hints st
    else
      let e := evaluateHints r.budget r.measure hints (w.filterMap (r.cands[·]?))
      let st' := st.add w e.2
      let rest := decideWaves r ws e.1 st'
      ((.hints, ⟨e.1, some st⟩) :: (.progress, ⟨e.1, some st'⟩) :: rest.1, rest.2)

/-- `decide_hints`: the writes, each with the files after it, and the state at the end. -/
def attempt (r : Round) (d : Disk) : List (RoundFile × Disk) × DecideState :=
  let fresh : DecideState := ⟨r.ids, schedule (r.cands.map r.footprint) r.width, PyDict.empty⟩
  let started :=
    let run := decideWaves r fresh.waves d.hints fresh
    ((.progress, ⟨d.hints, some fresh⟩) :: run.1, run.2)
  match d.progress with
  | some st => if st.cands = r.ids then decideWaves r st.waves d.hints st else started
  | none => started

/-- The decisions that are returned, in rank order. -/
def DecideState.decisions (st : DecideState) : List Decision :=
  (st.decided.keys.insertionSort (· ≤ ·)).filterMap st.decided.get?

/-! ### Processes that die -/

/-- The last write of a process that dies after `n` writes. -/
def lastWrite (r : Round) (d : Disk) (n : ℕ) : Option (RoundFile × Disk) :=
  ((attempt r d).1.take n).getLast?

/-- The files after a process that died after `n` writes. -/
def diskAfter (r : Round) (d : Disk) (n : ℕ) : Disk :=
  match lastWrite r d n with
  | some (_, d') => d'
  | none => d

/-- The files after processes that died. -/
def resumed (r : Round) (d : Disk) (deaths : List ℕ) : Disk := deaths.foldl (diskAfter r) d

/-- The files after a process that lives to the end. -/
def finished (r : Round) (d : Disk) : Disk := diskAfter r d (attempt r d).1.length

/-! ## When decisions are recorded once -/

open List

/-! ### Evidence -/

section
variable {doc : List Hint} {budget : ℕ} {measure : String → Measured}

/-- The evidence of a hint. -/
def evidenceOf (doc : List Hint) (hid : String) : List Evidence :=
  match getHint doc hid with
  | some h => h.evidence
  | none => []

/-- The evidence that a measurement gives. -/
def Measured.evidence : Measured → Evidence
  | .early => ⟨.rejected, false⟩
  | .gated accepted => ⟨if accepted then .accepted else .rejected, false⟩
  | .lost => ⟨.undecided, true⟩

theorem getHint_modifyHint {hid : String} {f : Hint → Hint} (hf : ∀ h, (f h).id = h.id)
    (hid' : String) : getHint (modifyHint hid f doc) hid' =
      if hid' = hid then (getHint doc hid').map f else getHint doc hid' := by
  simp only [getHint]
  induction doc with
  | nil => split_ifs <;> rfl
  | cons h rest ih =>
    rw [modifyHint]
    by_cases hh : h.id = hid
    · subst hh
      rw [if_pos rfl, find?_cons, find?_cons, hf]
      by_cases heq : h.id = hid'
      · subst heq
        simp
      · rw [if_neg fun h' => heq h'.symm]
        simp [heq]
    · rw [if_neg hh, find?_cons, find?_cons]
      by_cases heq : h.id = hid'
      · subst heq
        simp [hh]
      · simp only [heq, decide_false]
        exact ih

theorem modifyHint_modifyHint {hid : String} {f g : Hint → Hint} (hf : ∀ h, (f h).id = h.id) :
    modifyHint hid g (modifyHint hid f doc) = modifyHint hid (fun h => g (f h)) doc := by
  induction doc with
  | nil => rfl
  | cons h rest ih =>
    rw [modifyHint, modifyHint]
    split_ifs with hh
    · rw [modifyHint, hf, if_pos hh]
    · rw [modifyHint, if_neg hh, ih]

theorem Hint.record_id (h : Hint) (ev : Evidence) : (h.record ev).id = h.id := by
  rw [Hint.record]
  split <;> rfl

theorem Hint.record_evidence (h : Hint) (ev : Evidence) :
    (h.record ev).evidence = h.evidence ++ [ev] := by
  rw [Hint.record]
  split <;> rfl

/-- The hints of the file keep their evidence, and the hint that is decided gets one record. -/
theorem finishHint_spec (budget : ℕ) {hint : Hint} (hknown : (getHint doc hint.id).isSome)
    (m : Measured) (hid : String) :
    ((getHint (finishHint budget doc hint m).1 hid).isSome = (getHint doc hid).isSome) ∧
      evidenceOf (finishHint budget doc hint m).1 hid =
        evidenceOf doc hid ++ if hid = hint.id then [m.evidence] else [] := by
  obtain ⟨h, hh⟩ := Option.isSome_iff_exists.mp hknown
  -- What is known of a changed record, whatever else is changed in it.
  have hchanged : ∀ f : Hint → Hint, (∀ h, (f h).id = h.id) →
      (∀ h, (f h).evidence = h.evidence ++ [m.evidence]) →
        ((getHint (modifyHint hint.id f doc) hid).isSome = (getHint doc hid).isSome) ∧
          evidenceOf (modifyHint hint.id f doc) hid =
            evidenceOf doc hid ++ if hid = hint.id then [m.evidence] else [] := by
    intro f hf hev
    rw [evidenceOf, evidenceOf, getHint_modifyHint hf]
    by_cases heq : hid = hint.id
    · subst heq
      simp [hh, hev]
    · simp [heq]
  have hrecord : ∀ ev, recordDecision doc hint ev =
      (modifyHint hint.id (·.record ev) doc, h.record ev) := by
    intro ev
    rw [recordDecision, hh]
  cases m with
  | early =>
    rw [finishHint, hrecord]
    exact hchanged _ (fun h => h.record_id _) fun h => h.record_evidence _
  | gated accepted =>
    rw [finishHint, hrecord]
    exact hchanged _ (fun h => h.record_id _) fun h => h.record_evidence _
  | lost =>
    rw [finishHint, hrecord]
    by_cases hspent : 0 < budget ∧ budget < infraFailures (h.record ⟨.undecided, true⟩)
    · rw [if_pos hspent, modifyHint_modifyHint fun h => h.record_id _]
      exact hchanged _ (fun h => h.record_id _) fun h => h.record_evidence _
    · rw [if_neg hspent]
      exact hchanged _ (fun h => h.record_id _) fun h => h.record_evidence _

theorem finishHint_hint (hint : Hint) (m : Measured) :
    (finishHint budget doc hint m).2.hint = hint.id := by
  cases m with
  | early => rfl
  | gated accepted => rfl
  | lost =>
    rw [finishHint]
    split_ifs <;> rfl

/-- Every hint that is decided gets one record, and the decisions are those of the hints. -/
theorem evaluateHints_spec (budget : ℕ) (measure : String → Measured) {items : List Hint}
    (hknown : ∀ h ∈ items, (getHint doc h.id).isSome) :
    (∀ hid, (getHint (evaluateHints budget measure doc items).1 hid).isSome =
        (getHint doc hid).isSome ∧
      evidenceOf (evaluateHints budget measure doc items).1 hid = evidenceOf doc hid ++
        (items.filter (·.id = hid)).map fun h => (measure h.id).evidence) ∧
      (evaluateHints budget measure doc items).2.map Decision.hint = items.map Hint.id := by
  induction items using reverseRecOn with
  | nil =>
    refine ⟨fun hid => ⟨rfl, ?_⟩, rfl⟩
    exact (append_nil _).symm
  | append_singleton items h ih =>
    obtain ⟨hdoc, hdecisions⟩ := ih fun h' hh' => hknown h' (mem_append_left _ hh')
    have hstep : evaluateHints budget measure doc (items ++ [h]) =
        let st := evaluateHints budget measure doc items
        let r := finishHint budget st.1 h (measure h.id)
        (r.1, st.2 ++ [r.2]) := by
      rw [evaluateHints, foldl_append]
      rfl
    have hknown' : (getHint (evaluateHints budget measure doc items).1 h.id).isSome := by
      rw [(hdoc h.id).1]
      exact hknown h (mem_append_right _ (mem_singleton_self h))
    rw [hstep]
    constructor
    · intro hid
      obtain ⟨hsome, hev⟩ := finishHint_spec budget hknown' (measure h.id) hid
      refine ⟨hsome.trans (hdoc hid).1, hev.trans ?_⟩
      rw [(hdoc hid).2, filter_append, map_append, append_assoc]
      by_cases heq : h.id = hid
      · simp [heq]
      · simp [heq, Ne.symm heq]
    · rw [map_append, map_append, hdecisions, map_singleton, map_singleton, finishHint_hint]

end

/-! ### The files after the waves -/

section
variable {r : Round}

/-- A wave is decided, unless it is already. -/
def decideStep (r : Round) (p : List Hint × DecideState) (w : List ℕ) :
    List Hint × DecideState :=
  if w.all (· ∈ p.2.decided.keys) then p
  else
    let e := evaluateHints r.budget r.measure p.1 (w.filterMap (r.cands[·]?))
    (e.1, p.2.add w e.2)

/-- The files after some writes. -/
def lastDisk (d : Disk) (writes : List (RoundFile × Disk)) : Disk :=
  match writes.getLast? with
  | some e => e.2
  | none => d

theorem lastDisk_cons (d : Disk) (e : RoundFile × Disk) (writes : List (RoundFile × Disk)) :
    lastDisk d (e :: writes) = lastDisk e.2 writes := by
  rw [lastDisk, lastDisk, getLast?_cons]
  cases writes.getLast? <;> rfl

variable {w : List ℕ} {ws : List (List ℕ)} {hints : List Hint} {st : DecideState}

theorem decideWaves_cons_of_decided (h : w.all (· ∈ st.decided.keys) = true) :
    decideWaves r (w :: ws) hints st = decideWaves r ws hints st := by
  rw [decideWaves, if_pos h]

/-- The writes end with what the waves make of the files. -/
theorem lastDisk_decideWaves (ws : List (List ℕ)) (hints : List Hint) (st : DecideState) :
    lastDisk ⟨hints, some st⟩ (decideWaves r ws hints st).1 =
        ⟨(ws.foldl (decideStep r) (hints, st)).1, some (ws.foldl (decideStep r) (hints, st)).2⟩ ∧
      (decideWaves r ws hints st).2 = (ws.foldl (decideStep r) (hints, st)).2 := by
  induction ws generalizing hints st with
  | nil => exact ⟨rfl, rfl⟩
  | cons w ws ih =>
    rw [foldl_cons, decideStep]
    by_cases hdecided : w.all (· ∈ st.decided.keys) = true
    · rw [if_pos hdecided, decideWaves_cons_of_decided hdecided]
      exact ih hints st
    · rw [if_neg hdecided, decideWaves, if_neg hdecided]
      rw [lastDisk_cons, lastDisk_cons]
      exact ih _ _

variable {d : Disk}

/-- What a write of `progress.json` leaves are the files after some of the waves. -/
theorem exists_of_mem_decideWaves (h : (RoundFile.progress, d) ∈ (decideWaves r ws hints st).1) :
    ∃ k ≤ ws.length, d = ⟨((ws.take k).foldl (decideStep r) (hints, st)).1,
      some ((ws.take k).foldl (decideStep r) (hints, st)).2⟩ := by
  induction ws generalizing hints st with
  | nil => exact absurd h not_mem_nil
  | cons w ws ih =>
    by_cases hdecided : w.all (· ∈ st.decided.keys) = true
    · rw [decideWaves_cons_of_decided hdecided] at h
      obtain ⟨k, hk, hd⟩ := ih h
      refine ⟨k + 1, Nat.succ_le_succ hk, ?_⟩
      rw [take_succ_cons, foldl_cons, decideStep, if_pos hdecided]
      exact hd
    · rw [decideWaves, if_neg hdecided] at h
      rcases mem_cons.mp h with heq | h
      · exact absurd (Prod.mk.inj heq).1 (by decide)
      · rcases mem_cons.mp h with heq | h
        · refine ⟨1, Nat.succ_le_succ (Nat.zero_le _), ?_⟩
          rw [take_succ_cons, take_zero, foldl_cons, foldl_nil, decideStep, if_neg hdecided]
          exact (Prod.mk.inj heq).2
        · obtain ⟨k, hk, hd⟩ := ih h
          refine ⟨k + 1, Nat.succ_le_succ hk, ?_⟩
          rw [take_succ_cons, foldl_cons, decideStep, if_neg hdecided]
          exact hd

/-! ### One wave -/

theorem mem_keys_foldl_set (l : List (ℕ × Decision)) (d : PyDict ℕ Decision) (i : ℕ) :
    i ∈ (l.foldl (fun d e => d.set e.1 e.2) d).keys ↔ i ∈ d.keys ∨ i ∈ l.map Prod.fst := by
  induction l generalizing d with
  | nil => simp
  | cons e rest ih =>
    rw [foldl_cons, ih, PyDict.mem_keys_set, map_cons, mem_cons]
    grind

variable {i : ℕ}

theorem get?_foldl_set_cases {l : List (ℕ × Decision)} {d : PyDict ℕ Decision} {x : Decision}
    (h : (l.foldl (fun d e => d.set e.1 e.2) d).get? i = some x) :
    (i, x) ∈ l ∨ d.get? i = some x := by
  induction l generalizing d with
  | nil => exact .inr h
  | cons e rest ih =>
    rcases ih h with hmem | hget
    · exact .inl (mem_cons_of_mem e hmem)
    · rw [PyDict.get?_set] at hget
      split_ifs at hget with hi
      · subst hi
        obtain rfl := Option.some.inj hget
        exact .inl mem_cons_self
      · exact .inr hget

/-- The decisions of a wave are those of its hints. -/
theorem hint_of_mem_zip {ds : List Decision} (hw : ∀ i ∈ w, i < r.cands.length)
    (hds : ds.map Decision.hint = (w.filterMap (r.cands[·]?)).map Hint.id) :
    (w.zip ds).map Prod.fst = w ∧
      ∀ e ∈ w.zip ds, ∃ h, r.cands[e.1]? = some h ∧ e.2.hint = h.id := by
  induction w generalizing ds with
  | nil =>
    refine ⟨rfl, fun e he => ?_⟩
    cases he
  | cons i w ih =>
    have hi := getElem?_eq_getElem (hw i mem_cons_self)
    rw [filterMap_cons_some hi, map_cons] at hds
    cases ds with
    | nil => cases hds
    | cons d ds =>
      obtain ⟨hd, hds⟩ := cons_eq_cons.mp hds
      obtain ⟨hfst, hmem⟩ := ih (fun j hj => hw j (mem_cons_of_mem i hj)) hds
      rw [zip_cons_cons, map_cons, hfst]
      refine ⟨rfl, fun e he => ?_⟩
      rcases mem_cons.mp he with rfl | he
      · exact ⟨_, hi, hd⟩
      · exact hmem e he

/-- A hint is once in a wave that has its index. -/
theorem filter_filterMap (hw : w.Nodup) (hids : r.ids.Nodup) {h : Hint} (hi : r.cands[i]? = some h)
    :
    (w.filterMap (r.cands[·]?)).filter (·.id = h.id) = if i ∈ w then [h] else [] := by
  have hinj : ∀ (j : ℕ) h', r.cands[j]? = some h' → (h'.id = h.id ↔ i = j) := by
    intro j h' hj
    constructor
    · intro heq
      have hgeti : r.ids[i]? = some h.id := by rw [Round.ids, getElem?_map, hi]; rfl
      have hgetj : r.ids[j]? = some h.id := by rw [Round.ids, getElem?_map, hj, ← heq]; rfl
      have hlt := (List.getElem?_eq_some_iff.mp hgeti).1
      exact (getElem?_inj hlt hids).mp (hgeti.trans hgetj.symm)
    · rintro rfl
      rw [Option.some.inj (hi.symm.trans hj)]
  induction w with
  | nil => rfl
  | cons j w ih =>
    obtain ⟨hjw, hnodup⟩ := nodup_cons.mp hw
    rw [filterMap_cons]
    cases hj : r.cands[j]? with
    | none =>
      have hne : i ≠ j := fun heq => by
        rw [← heq, hi] at hj
        cases hj
      simp only [mem_cons, hne, false_or]
      exact ih hnodup
    | some h' =>
      rw [filter_cons, ih hnodup]
      by_cases hij : i = j
      · subst hij
        obtain rfl := Option.some.inj (hi.symm.trans hj)
        simp [hjw]
      · have hne : h'.id ≠ h.id := fun heq => hij ((hinj j h' hj).mp heq)
        simp [hne, hij]

/-- What a wave makes of the files. -/
structure WaveSpec (r : Round) (w : List ℕ) (p p' : List Hint × DecideState) : Prop where
  known : ∀ hid, (getHint p'.1 hid).isSome = (getHint p.1 hid).isSome
  evidence : ∀ i h, r.cands[i]? = some h → evidenceOf p'.1 h.id =
    evidenceOf p.1 h.id ++ if i ∈ w then [(r.measure h.id).evidence] else []
  keys : ∀ i, i ∈ p'.2.decided.keys ↔ i ∈ p.2.decided.keys ∨ i ∈ w
  hint : ∀ i x, p'.2.decided.get? i = some x →
    p.2.decided.get? i = some x ∨ ∃ h, r.cands[i]? = some h ∧ x.hint = h.id

variable {p : List Hint × DecideState} {k : ℕ}

theorem waveSpec (hids : r.ids.Nodup) (hknown : ∀ h ∈ r.cands, (getHint p.1 h.id).isSome)
    (hnodup : w.Nodup) (hw : ∀ i ∈ w, i < r.cands.length) :
    WaveSpec r w p
      ((evaluateHints r.budget r.measure p.1 (w.filterMap (r.cands[·]?))).1,
        p.2.add w (evaluateHints r.budget r.measure p.1 (w.filterMap (r.cands[·]?))).2) := by
  have hitems : ∀ h ∈ w.filterMap (r.cands[·]?), (getHint p.1 h.id).isSome := by
    intro h hh
    obtain ⟨i, -, hi⟩ := mem_filterMap.mp hh
    exact hknown h (mem_of_getElem? hi)
  obtain ⟨hdoc, hdecisions⟩ :=
    evaluateHints_spec r.budget r.measure hitems
  obtain ⟨hfst, hzip⟩ := hint_of_mem_zip hw hdecisions
  constructor
  · exact fun hid => (hdoc hid).1
  · intro i h hi
    rw [(hdoc h.id).2, filter_filterMap hnodup hids hi]
    split_ifs <;> rfl
  · intro i
    rw [DecideState.add, mem_keys_foldl_set, hfst]
  · intro i x hx
    rcases get?_foldl_set_cases hx with hmem | hget
    · exact .inr (hzip _ hmem)
    · exact .inl hget

/-! ### Rounds -/

/-- The waves of a round. -/
def Round.waves (r : Round) : List (List ℕ) := schedule (r.cands.map r.footprint) r.width

/-- The waves have every candidate once, and none is empty. -/
theorem Round.waves_spec (r : Round) :
    r.waves.flatten.Perm (List.range r.cands.length) ∧ ∀ w ∈ r.waves, w ≠ [] := by
  obtain ⟨waveOf, hspec⟩ := schedule_spec (r.cands.map r.footprint) r.width
  have hperm := hspec.perm
  rw [length_map] at hperm
  exact ⟨hperm, hspec.nonempty⟩

theorem Round.lt_of_mem_waves (hw : w ∈ r.waves) (hi : i ∈ w) :
    i < r.cands.length :=
  mem_range.mp (r.waves_spec.1.mem_iff.mp (mem_flatten_of_mem hw hi))

theorem Round.nodup_of_mem_waves (hw : w ∈ r.waves) : w.Nodup :=
  (nodup_flatten.mp (r.waves_spec.1.nodup_iff.mpr nodup_range)).1 w hw

/-- The phase `decide` before the first wave. -/
def Round.fresh (r : Round) : DecideState := ⟨r.ids, r.waves, PyDict.empty⟩

/-- The files after the first waves. -/
def Round.after (r : Round) (hints : List Hint) (k : ℕ) : List Hint × DecideState :=
  (r.waves.take k).foldl (decideStep r) (hints, r.fresh)

/-- What is known of the files after the first waves. -/
structure AfterSpec (r : Round) (hints : List Hint) (k : ℕ) (p : List Hint × DecideState) :
    Prop where
  known : ∀ hid, (getHint p.1 hid).isSome = (getHint hints hid).isSome
  evidence : ∀ i h, r.cands[i]? = some h → evidenceOf p.1 h.id = evidenceOf hints h.id ++
    if i ∈ (r.waves.take k).flatten then [(r.measure h.id).evidence] else []
  keys : ∀ i, i ∈ p.2.decided.keys ↔ i ∈ (r.waves.take k).flatten
  hint : ∀ i x, p.2.decided.get? i = some x → ∃ h, r.cands[i]? = some h ∧ x.hint = h.id

section
variable (hids : r.ids.Nodup) (hknown : ∀ h ∈ r.cands, (getHint hints h.id).isSome)
include hids hknown

theorem Round.after_spec (hk : k ≤ r.waves.length) :
    AfterSpec r hints k (r.after hints k) := by
  induction k with
  | zero =>
    refine ⟨fun _ => rfl, fun i h _ => ?_, fun i => ?_, fun i x hx => ?_⟩
    · exact (append_nil _).symm
    · exact Iff.rfl
    · cases hx
  | succ k ih =>
    have hlt : k < r.waves.length := hk
    have hspec := ih (Nat.le_of_lt hlt)
    have hmem : r.waves[k] ∈ r.waves := getElem_mem hlt
    have htake : r.waves.take (k + 1) = r.waves.take k ++ [r.waves[k]] :=
      (take_append_getElem hlt).symm
    have hflat : ∀ i, i ∈ (r.waves.take (k + 1)).flatten ↔
        i ∈ (r.waves.take k).flatten ∨ i ∈ r.waves[k] := by
      intro i
      rw [htake, flatten_append, flatten_singleton, mem_append]
    -- The candidates of the wave are in no wave before it.
    have hnew : ∀ i ∈ r.waves[k], i ∉ (r.waves.take k).flatten := by
      have hnodup := r.waves_spec.1.nodup_iff.mpr nodup_range
      rw [← take_append_drop (k + 1) r.waves, flatten_append, htake,
        flatten_append, flatten_singleton] at hnodup
      intro i hi hbefore
      exact (nodup_append.mp (nodup_append.mp hnodup).1).2.2 i hbefore i hi rfl
    have hopen : ¬(r.waves[k].all (· ∈ (r.after hints k).2.decided.keys) = true) := by
      intro hall
      obtain ⟨i, hi⟩ := exists_mem_of_ne_nil _ (r.waves_spec.2 _ hmem)
      have hkey := of_decide_eq_true (all_eq_true.mp hall i hi)
      exact hnew i hi ((hspec.keys i).mp hkey)
    have hwave := waveSpec hids (p := r.after hints k)
      (fun h hh => by rw [hspec.known]; exact hknown h hh) (Round.nodup_of_mem_waves hmem)
      fun i hi => Round.lt_of_mem_waves hmem hi
    have hstep : r.after hints (k + 1) = decideStep r (r.after hints k) r.waves[k] := by
      rw [Round.after, htake, foldl_append]
      rfl
    rw [hstep, decideStep, if_neg hopen]
    constructor
    · exact fun hid => (hwave.known hid).trans (hspec.known hid)
    · intro i h hi
      rw [hwave.evidence i h hi, hspec.evidence i h hi, append_assoc]
      simp only [hflat]
      by_cases hw : i ∈ r.waves[k]
      · simp [hw, hnew i hw]
      · simp [hw]
    · intro i
      rw [hwave.keys, hspec.keys, hflat]
    · intro i x hx
      rcases hwave.hint i x hx with hold | hnew
      · exact hspec.hint i x hold
      · exact hnew

/-- All candidates are decided after the last wave. -/
theorem Round.decisions_after :
    (r.after hints r.waves.length).2.decisions.map Decision.hint = r.ids := by
  obtain ⟨-, -, hkeys, hhint⟩ := r.after_spec hids hknown (Nat.le_refl _)
  generalize (r.after hints r.waves.length).2 = st at hkeys hhint
  rw [take_length] at hkeys
  have hperm : st.decided.keys.Perm (List.range r.cands.length) := by
    refine (perm_ext_iff_of_nodup st.decided.keys_nodup nodup_range).mpr fun i => ?_
    rw [hkeys, r.waves_spec.1.mem_iff]
  have hsort : st.decided.keys.insertionSort (· ≤ ·) = List.range r.cands.length := by
    refine List.Perm.eq_of_pairwise (fun a b _ _ => Nat.le_antisymm) ?_ ?_
      ((perm_insertionSort _ _).trans hperm)
    · exact pairwise_insertionSort _ _
    · exact pairwise_le_range
  rw [DecideState.decisions, hsort]
  -- The decision at an index is that of the candidate.
  have hget : ∀ i < r.cands.length, ∃ x h, st.decided.get? i = some x ∧ r.cands[i]? = some h ∧
      x.hint = h.id := by
    intro i hi
    have hkey : i ∈ st.decided.keys := hperm.mem_iff.mpr (mem_range.mpr hi)
    obtain ⟨x, hx⟩ := PyDict.mem_keys_iff.mp hkey
    obtain ⟨h, hh, heq⟩ := hhint i x hx
    exact ⟨x, h, hx, hh, heq⟩
  have htaken : ∀ n ≤ r.cands.length,
      ((List.range n).filterMap st.decided.get?).map Decision.hint = r.ids.take n := by
    intro n hn
    induction n with
    | zero => rfl
    | succ n ih =>
      obtain ⟨x, h, hx, hh, heq⟩ := hget n hn
      have hid : r.ids[n]? = some h.id := by
        rw [Round.ids, getElem?_map, hh]
        rfl
      rw [range_succ, filterMap_append, map_append, ih (Nat.le_of_succ_le hn),
        take_add_one, hid, filterMap_cons_some hx]
      simp [heq]
  rw [htaken _ (Nat.le_refl _), take_of_length_le]
  exact Nat.le_of_eq (length_map _)

end

/-! ### Processes that die elsewhere -/

/-- The files of a process that starts, or those after some of the waves. -/
def Clean (r : Round) (hints : List Hint) (d : Disk) : Prop :=
  d = ⟨hints, none⟩ ∨
    ∃ k ≤ r.waves.length, d = ⟨(r.after hints k).1, some (r.after hints k).2⟩

theorem Round.after_cands (r : Round) (hints : List Hint) (k : ℕ) :
    (r.after hints k).2.cands = r.ids ∧ (r.after hints k).2.waves = r.waves := by
  have hstep : ∀ (ws : List (List ℕ)) (p : List Hint × DecideState),
      (ws.foldl (decideStep r) p).2.cands = p.2.cands ∧
        (ws.foldl (decideStep r) p).2.waves = p.2.waves := by
    intro ws
    induction ws with
    | nil => exact fun p => ⟨rfl, rfl⟩
    | cons w ws ih =>
      intro p
      rw [foldl_cons, (ih _).1, (ih _).2, decideStep]
      split_ifs <;> exact ⟨rfl, rfl⟩
  exact hstep _ _

theorem attempt_none (r : Round) (hints : List Hint) :
    attempt r ⟨hints, none⟩ =
      ((.progress, ⟨hints, some r.fresh⟩) :: (decideWaves r r.waves hints r.fresh).1,
        (decideWaves r r.waves hints r.fresh).2) := rfl

theorem attempt_some (hst : d.progress = some st) (hcands : st.cands = r.ids) :
    attempt r d = decideWaves r st.waves d.hints st := by
  rw [attempt, hst]
  exact if_pos hcands

/-- A process goes on behind the waves that are finished. -/
theorem decideWaves_after (hids : r.ids.Nodup) (hknown : ∀ h ∈ r.cands, (getHint hints h.id).isSome)
    (hk : k ≤ r.waves.length) :
    decideWaves r r.waves (r.after hints k).1 (r.after hints k).2 =
      decideWaves r (r.waves.drop k) (r.after hints k).1 (r.after hints k).2 := by
  have hkeys := (r.after_spec hids hknown hk).keys
  generalize r.after hints k = p at hkeys
  have hskip : ∀ ws : List (List ℕ), (∀ w ∈ ws, ∀ i ∈ w, i ∈ p.2.decided.keys) → ∀ rest,
      decideWaves r (ws ++ rest) p.1 p.2 = decideWaves r rest p.1 p.2 := by
    intro ws
    induction ws with
    | nil => exact fun _ rest => rfl
    | cons w ws ih =>
      intro hws rest
      have hdecided : w.all (· ∈ p.2.decided.keys) = true :=
        all_eq_true.mpr fun i hi => decide_eq_true (hws w mem_cons_self i hi)
      rw [cons_append, decideWaves_cons_of_decided hdecided]
      exact ih (fun w' hw' => hws w' (mem_cons_of_mem w hw')) rest
  conv_lhs => rw [← take_append_drop k r.waves]
  apply hskip
  intro w hw i hi
  exact (hkeys i).mpr (mem_flatten_of_mem hw hi)

theorem Round.foldl_drop (r : Round) (hints : List Hint) (k m : ℕ) :
    ((r.waves.drop k).take m).foldl (decideStep r) (r.after hints k) = r.after hints (k + m) := by
  rw [Round.after, Round.after, ← foldl_append, take_add]

/-- What the writes of a process leave, if it starts from clean files. -/
theorem Clean.attempt_spec (hids : r.ids.Nodup)
    (hknown : ∀ h ∈ r.cands, (getHint hints h.id).isSome) (h : Clean r hints d) :
    (∀ d', (RoundFile.progress, d') ∈ (attempt r d).1 → Clean r hints d') ∧
      lastDisk d (attempt r d).1 = ⟨(r.after hints r.waves.length).1,
        some (r.after hints r.waves.length).2⟩ ∧
      (attempt r d).2 = (r.after hints r.waves.length).2 := by
  have hrun : ∀ k ≤ r.waves.length, (∀ d', (RoundFile.progress, d') ∈
        (decideWaves r r.waves (r.after hints k).1 (r.after hints k).2).1 → Clean r hints d') ∧
      lastDisk ⟨(r.after hints k).1, some (r.after hints k).2⟩
        (decideWaves r r.waves (r.after hints k).1 (r.after hints k).2).1 =
          ⟨(r.after hints r.waves.length).1, some (r.after hints r.waves.length).2⟩ ∧
      (decideWaves r r.waves (r.after hints k).1 (r.after hints k).2).2 =
        (r.after hints r.waves.length).2 := by
    intro k hk
    rw [decideWaves_after hids hknown hk]
    have hall := r.foldl_drop hints k (r.waves.length - k)
    rw [Nat.add_sub_cancel' hk, take_of_length_le (by rw [length_drop])] at hall
    obtain ⟨hlast, hend⟩ := lastDisk_decideWaves (r := r) (r.waves.drop k) (r.after hints k).1
      (r.after hints k).2
    rw [Prod.mk.eta, hall] at hlast hend
    refine ⟨fun d' hd' => ?_, hlast, hend⟩
    obtain ⟨m, hm, heq⟩ := exists_of_mem_decideWaves hd'
    rw [Prod.mk.eta, r.foldl_drop] at heq
    rw [length_drop] at hm
    exact .inr ⟨k + m, by omega, heq⟩
  rcases h with rfl | ⟨k, hk, rfl⟩
  · rw [attempt_none]
    obtain ⟨hwrites, hlast, hend⟩ := hrun 0 (Nat.zero_le _)
    refine ⟨fun d' hd' => ?_, ?_, hend⟩
    · rcases mem_cons.mp hd' with heq | hd'
      · exact .inr ⟨0, Nat.zero_le _, (Prod.mk.inj heq).2⟩
      · exact hwrites d' hd'
    · rw [lastDisk_cons]
      exact hlast
  · obtain ⟨hcands, hwaves⟩ := r.after_cands hints k
    rw [attempt_some rfl hcands, hwaves]
    exact hrun k hk

/-! ### Processes that die between two writes -/

/-- The candidates that `progress.json` has decisions of. -/
def Disk.decidedKeys (d : Disk) : List ℕ :=
  match d.progress with
  | some st => st.decided.keys
  | none => []

/-- The hints file has at least `s` records of a candidate that no decision stands for. -/
def Excess (r : Round) (hints : List Hint) (d : Disk) (i s : ℕ) : Prop :=
  ∀ h, r.cands[i]? = some h → (evidenceOf hints h.id).length +
    (if i ∈ d.decidedKeys then 1 else 0) + s ≤ (evidenceOf d.hints h.id).length

/-- What is known of the files of a round, wherever processes died. -/
structure Reached (r : Round) (hints : List Hint) (d : Disk) : Prop where
  known : ∀ h ∈ r.cands, (getHint d.hints h.id).isSome
  progress : ∀ st, d.progress = some st → st.cands = r.ids ∧ st.waves = r.waves
  excess : ∀ i, Excess r hints d i 0

/-- What is known of the files after a write, of those before it. -/
structure WriteSpec (r : Round) (hints : List Hint) (d : Disk) (e : RoundFile × Disk) : Prop where
  reached : Reached r hints e.2
  excess : ∀ i s, Excess r hints d i s → Excess r hints e.2 i s
  torn : e.1 = .hints → ∃ i < r.cands.length, Excess r hints e.2 i 1

section
variable (hids : r.ids.Nodup)
include hids

/-- Records are never taken away, and a wave that is in the hints file only has records too many. -/
theorem writeSpec_of_mem (hws : ∀ w ∈ ws, w.Nodup ∧ ∀ i ∈ w, i < r.cands.length)
    {hints' : List Hint} (h : Reached r hints ⟨hints', some st⟩) :
    ∀ e ∈ (decideWaves r ws hints' st).1, WriteSpec r hints ⟨hints', some st⟩ e := by
  induction ws generalizing hints' st with
  | nil =>
    intro e he
    cases he
  | cons w ws ih =>
    obtain ⟨hnodup, hlt⟩ := hws w mem_cons_self
    have hrest : ∀ w ∈ ws, w.Nodup ∧ ∀ i ∈ w, i < r.cands.length :=
      fun w' hw' => hws w' (mem_cons_of_mem w hw')
    by_cases hdecided : w.all (· ∈ st.decided.keys) = true
    · rw [decideWaves_cons_of_decided hdecided]
      exact ih hrest h
    obtain ⟨hknown, hev, hkeys, -⟩ := waveSpec (p := (hints', st)) hids h.known hnodup hlt
    rw [decideWaves, if_neg hdecided]
    dsimp only at hknown hev hkeys ⊢
    generalize evaluateHints r.budget r.measure hints' (w.filterMap (r.cands[·]?)) = r' at *
    -- Both writes keep what is in excess; the first one adds records to it.
    have hfirst : ∀ i s, Excess r hints ⟨hints', some st⟩ i s →
        Excess r hints ⟨r'.1, some st⟩ i s := by
      intro i s hexcess h' hh'
      have := hexcess h' hh'
      show _ ≤ (evidenceOf r'.1 h'.id).length
      rw [hev i h' hh', length_append]
      exact Nat.le_trans this (Nat.le_add_right _ _)
    have hsecond : ∀ i s, Excess r hints ⟨hints', some st⟩ i s →
        Excess r hints ⟨r'.1, some (st.add w r'.2)⟩ i s := by
      intro i s hexcess h' hh'
      have hle := hexcess h' hh'
      show _ + (if i ∈ (st.add w r'.2).decided.keys then 1 else 0) + s ≤
        (evidenceOf r'.1 h'.id).length
      have hle' : (evidenceOf hints h'.id).length + (if i ∈ st.decided.keys then 1 else 0) + s ≤
        (evidenceOf hints' h'.id).length := hle
      rw [hev i h' hh', length_append]
      by_cases hw : i ∈ w
      · rw [if_pos ((hkeys i).mpr (.inr hw)), if_pos hw, length_singleton]
        omega
      · have hiff : i ∈ (st.add w r'.2).decided.keys ↔ i ∈ st.decided.keys := by
          rw [hkeys, or_iff_left hw]
        simp only [hiff, if_neg hw, length_nil, Nat.add_zero]
        exact hle'
    have hopen : ∃ i ∈ w, i ∉ st.decided.keys := by
      by_contra hnone
      refine hdecided (all_eq_true.mpr fun i hi => decide_eq_true ?_)
      exact by_contra fun hi' => hnone ⟨i, hi, hi'⟩
    have hknown' : ∀ h ∈ r.cands, (getHint r'.1 h.id).isSome := fun h' hh' => by
      rw [hknown]
      exact h.known h' hh'
    have hreached : Reached r hints ⟨r'.1, some (st.add w r'.2)⟩ := by
      refine ⟨hknown', fun st' hst' => ?_, fun i => hsecond i 0 (h.excess i)⟩
      obtain rfl := Option.some.inj hst'
      exact h.progress st rfl
    intro e he
    rcases mem_cons.mp he with rfl | he
    · refine ⟨⟨hknown', h.progress, fun i => hfirst i 0 (h.excess i)⟩, hfirst, fun _ => ?_⟩
      obtain ⟨i, hi, hnot⟩ := hopen
      refine ⟨i, hlt i hi, fun h' hh' => ?_⟩
      have hle : (evidenceOf hints h'.id).length + (if i ∈ st.decided.keys then 1 else 0) + 0 ≤
        (evidenceOf hints' h'.id).length := h.excess i h' hh'
      show _ + (if i ∈ st.decided.keys then 1 else 0) + 1 ≤ (evidenceOf r'.1 h'.id).length
      rw [hev i h' hh', length_append, if_pos hi, length_singleton]
      omega
    · rcases mem_cons.mp he with rfl | he
      · exact ⟨hreached, hsecond, fun heq => by cases heq⟩
      · have hwrite := ih hrest hreached e he
        exact ⟨hwrite.reached, fun i s hexcess => hwrite.excess i s (hsecond i s hexcess),
          hwrite.torn⟩

theorem Reached.attempt_spec (h : Reached r hints d) :
    ∀ e ∈ (attempt r d).1, WriteSpec r hints d e := by
  have hws : ∀ w ∈ r.waves, w.Nodup ∧ ∀ i ∈ w, i < r.cands.length :=
    fun w hw => ⟨Round.nodup_of_mem_waves hw, fun i hi => Round.lt_of_mem_waves hw hi⟩
  obtain ⟨hints', progress⟩ := d
  cases progress with
  | none =>
    have hfresh : ∀ i s, Excess r hints ⟨hints', none⟩ i s →
        Excess r hints ⟨hints', some r.fresh⟩ i s := fun i s hexcess => hexcess
    have hreached : Reached r hints ⟨hints', some r.fresh⟩ := by
      refine ⟨h.known, fun st hst => ?_, fun i => hfresh i 0 (h.excess i)⟩
      obtain rfl := Option.some.inj hst
      exact ⟨rfl, rfl⟩
    intro e he
    rcases mem_cons.mp he with rfl | he
    · exact ⟨hreached, hfresh, fun heq => by cases heq⟩
    · have hwrite := writeSpec_of_mem hids hws hreached e he
      exact ⟨hwrite.reached, fun i s hexcess => hwrite.excess i s (hfresh i s hexcess), hwrite.torn⟩
  | some st =>
    obtain ⟨hcands, hwaves⟩ := h.progress st rfl
    rw [attempt_some rfl hcands, hwaves]
    exact writeSpec_of_mem hids hws h

/-- What a process leaves when it dies. -/
theorem Reached.diskAfter_spec (h : Reached r hints d) (n : ℕ) :
    Reached r hints (diskAfter r d n) ∧
      ∀ i s, Excess r hints d i s → Excess r hints (diskAfter r d n) i s := by
  rw [diskAfter]
  cases hlast : lastWrite r d n with
  | none => exact ⟨h, fun i s hexcess => hexcess⟩
  | some e =>
    have hmem := mem_of_mem_take (mem_of_getLast? hlast)
    have hwrite := h.attempt_spec hids e hmem
    exact ⟨hwrite.reached, hwrite.excess⟩

theorem Reached.resumed_spec (h : Reached r hints d) (deaths : List ℕ) :
    Reached r hints (resumed r d deaths) ∧
      ∀ i s, Excess r hints d i s → Excess r hints (resumed r d deaths) i s := by
  induction deaths generalizing d with
  | nil => exact ⟨h, fun i s hexcess => hexcess⟩
  | cons n deaths ih =>
    obtain ⟨hreached, hexcess⟩ := h.diskAfter_spec hids n
    obtain ⟨hreached', hexcess'⟩ := ih hreached
    exact ⟨hreached', fun i s hi => hexcess' i s (hexcess i s hi)⟩

/-- All candidates of some waves are decided after them. -/
theorem mem_keys_foldl_decideStep (hws : ∀ w ∈ ws, w.Nodup ∧ ∀ i ∈ w, i < r.cands.length)
    (hknown : ∀ h ∈ r.cands, (getHint p.1 h.id).isSome) (hi : i ∈ p.2.decided.keys ∨ i ∈ ws.flatten)
    :
    i ∈ (ws.foldl (decideStep r) p).2.decided.keys := by
  induction ws generalizing p with
  | nil => exact hi.resolve_right not_mem_nil
  | cons w ws ih =>
    obtain ⟨hnodup, hlt⟩ := hws w mem_cons_self
    have hrest : ∀ w ∈ ws, w.Nodup ∧ ∀ i ∈ w, i < r.cands.length :=
      fun w' hw' => hws w' (mem_cons_of_mem w hw')
    rw [flatten_cons, mem_append] at hi
    rw [foldl_cons, decideStep]
    by_cases hdecided : w.all (· ∈ p.2.decided.keys) = true
    · rw [if_pos hdecided]
      apply ih hrest hknown
      rcases hi with hi | hi | hi
      · exact .inl hi
      · exact .inl (of_decide_eq_true (all_eq_true.mp hdecided i hi))
      · exact .inr hi
    · rw [if_neg hdecided]
      have hwave := waveSpec hids hknown hnodup hlt
      apply ih hrest
      · intro h hh
        rw [hwave.known]
        exact hknown h hh
      · rw [hwave.keys, or_assoc]
        exact hi

end

theorem diskAfter_length (r : Round) (d : Disk) : finished r d = lastDisk d (attempt r d).1 := by
  rw [finished, diskAfter, lastWrite, take_length, lastDisk]
  cases (attempt r d).1.getLast? <;> rfl

/-- A process that lives to the end decides all candidates. -/
theorem Reached.mem_decidedKeys (hids : r.ids.Nodup) (h : Reached r hints d)
    (hi : i < r.cands.length) :
    i ∈ (finished r d).decidedKeys := by
  have hws : ∀ w ∈ r.waves, w.Nodup ∧ ∀ i ∈ w, i < r.cands.length :=
    fun w hw => ⟨Round.nodup_of_mem_waves hw, fun i hi => Round.lt_of_mem_waves hw hi⟩
  have hmem : i ∈ r.waves.flatten := r.waves_spec.1.mem_iff.mpr (mem_range.mpr hi)
  rw [diskAfter_length]
  obtain ⟨hints', progress⟩ := d
  cases progress with
  | none =>
    rw [attempt_none, lastDisk_cons, (lastDisk_decideWaves _ _ _).1]
    exact mem_keys_foldl_decideStep hids hws h.known (.inr hmem)
  | some st =>
    obtain ⟨hcands, hwaves⟩ := h.progress st rfl
    rw [attempt_some rfl hcands, hwaves, (lastDisk_decideWaves _ _ _).1]
    exact mem_keys_foldl_decideStep hids hws h.known (.inr hmem)

end

/-! ### When decisions are recorded once -/

/-- No process dies after a wave has been written to the hints file and before it is written to
`progress.json`. -/
def NoneTorn (r : Round) : Disk → List ℕ → Prop
  | _, [] => True
  | d, n :: deaths =>
    (∀ d', lastWrite r d n ≠ some (.hints, d')) ∧ NoneTorn r (diskAfter r d n) deaths

/-- What is asked of a round that starts with a hints file, with processes that die. -/
structure DecidedOnce (r : Round) (hints : List Hint) (deaths : List ℕ) : Prop where
  /-- Every candidate has one record more. -/
  evidence : ∀ h ∈ r.cands, ∃ h' ev,
    getHint (finished r (resumed r ⟨hints, none⟩ deaths)).hints h.id = some h' ∧
      h'.evidence = h.evidence ++ [ev]
  /-- Its status is the one that a process gives that is not interrupted. -/
  status : ∀ h ∈ r.cands,
    (getHint (finished r (resumed r ⟨hints, none⟩ deaths)).hints h.id).map Hint.status =
      (getHint (finished r ⟨hints, none⟩).hints h.id).map Hint.status
  /-- The decisions that are returned are those of the candidates, in rank order. -/
  decisions : (attempt r (resumed r ⟨hints, none⟩ deaths)).2.decisions.map Decision.hint = r.ids

section
variable {r : Round} {hints : List Hint} {d : Disk} {deaths : List ℕ}

theorem Clean.resumed (hids : r.ids.Nodup) (hknown : ∀ h ∈ r.cands, (getHint hints h.id).isSome)
    (h : Clean r hints d) (hdeaths : NoneTorn r d deaths) :
    Clean r hints (resumed r d deaths) := by
  induction deaths generalizing d with
  | nil => exact h
  | cons n deaths ih =>
    obtain ⟨hn, hdeaths⟩ := hdeaths
    refine ih ?_ hdeaths
    rw [diskAfter]
    cases hlast : lastWrite r d n with
    | none => exact h
    | some e =>
      obtain ⟨file, d'⟩ := e
      have hmem := mem_of_mem_take (mem_of_getLast? hlast)
      cases file with
      | hints => exact absurd hlast (hn d')
      | progress => exact (h.attempt_spec hids hknown).1 d' hmem

/-- Some candidate has a record too many if a process dies between two writes. -/
theorem exists_excess (hids : r.ids.Nodup) (h : Reached r hints d) (hdeaths : ¬NoneTorn r d deaths)
    :
    ∃ i < r.cands.length, Excess r hints (resumed r d deaths) i 1 := by
  induction deaths generalizing d with
  | nil => exact absurd trivial hdeaths
  | cons n deaths ih =>
    obtain ⟨hreached, -⟩ := h.diskAfter_spec hids n
    by_cases htorn : ∃ d', lastWrite r d n = some (.hints, d')
    · obtain ⟨d', hd'⟩ := htorn
      have hmem := mem_of_mem_take (mem_of_getLast? hd')
      obtain ⟨i, hi, hexcess⟩ := (h.attempt_spec hids _ hmem).torn rfl
      have hafter : diskAfter r d n = d' := by rw [diskAfter, hd']
      refine ⟨i, hi, (hreached.resumed_spec hids deaths).2 i 1 ?_⟩
      rw [hafter]
      exact hexcess
    · exact ih hreached fun hrest => hdeaths ⟨fun d' hd' => htorn ⟨d', hd'⟩, hrest⟩

/-- A round decides its candidates once if and only if no process dies between the two writes of a
wave. -/
theorem decidedOnce_iff (hids : r.ids.Nodup) (hcands : ∀ h ∈ r.cands, getHint hints h.id = some h)
    (deaths : List ℕ) : DecidedOnce r hints deaths ↔ NoneTorn r ⟨hints, none⟩ deaths := by
  have hknown : ∀ h ∈ r.cands, (getHint hints h.id).isSome := fun h hh => by
    rw [hcands h hh]
    rfl
  have hstart : Reached r hints ⟨hints, none⟩ :=
    ⟨hknown, fun _ hst => (Option.some_ne_none _ hst.symm).elim, fun _ _ _ => Nat.le_refl _⟩
  have hbase : ∀ h ∈ r.cands, evidenceOf hints h.id = h.evidence := fun h hh => by
    rw [evidenceOf, hcands h hh]
  constructor
  · intro honce
    by_contra htorn
    obtain ⟨i, hi, hexcess⟩ := exists_excess hids hstart htorn
    obtain ⟨hreached, -⟩ := hstart.resumed_spec hids deaths
    have hkeep : Excess r hints (finished r (resumed r ⟨hints, none⟩ deaths)) i 1 :=
      (hreached.diskAfter_spec hids _).2 i 1 hexcess
    have hmem := getElem_mem hi
    have hle := hkeep _ (getElem?_eq_getElem hi)
    obtain ⟨h', ev, hget, hev⟩ := honce.evidence _ hmem
    have hrecords : evidenceOf (finished r (resumed r ⟨hints, none⟩ deaths)).hints r.cands[i].id =
        r.cands[i].evidence ++ [ev] := by
      rw [evidenceOf, hget, ← hev]
    -- The candidate is decided, and has a record too many.
    rw [if_pos (hreached.mem_decidedKeys hids hi), hbase _ hmem, hrecords, length_append,
      length_singleton] at hle
    omega
  · intro hdeaths
    have hclean : Clean r hints (resumed r ⟨hints, none⟩ deaths) :=
      Clean.resumed hids hknown (.inl rfl) hdeaths
    obtain ⟨-, hlast, hend⟩ := hclean.attempt_spec hids hknown
    obtain ⟨-, hlast', -⟩ :=
      Clean.attempt_spec hids hknown (.inl rfl : Clean r hints ⟨hints, none⟩)
    obtain ⟨hknown', hev, -, -⟩ := r.after_spec hids hknown (Nat.le_refl _)
    refine ⟨fun h hh => ?_, fun h hh => ?_, ?_⟩
    · obtain ⟨i, hi⟩ := mem_iff_getElem?.mp hh
      rw [diskAfter_length, hlast]
      have hsome := hknown' h.id
      rw [hcands h hh] at hsome
      obtain ⟨h', hh'⟩ := Option.isSome_iff_exists.mp hsome
      refine ⟨h', (r.measure h.id).evidence, hh', ?_⟩
      have hi' : i ∈ (r.waves.take r.waves.length).flatten := by
        rw [take_length, r.waves_spec.1.mem_iff, mem_range]
        exact (List.getElem?_eq_some_iff.mp hi).1
      have heq := hev i h hi
      rw [if_pos hi', hbase h hh, evidenceOf, hh'] at heq
      exact heq
    · rw [diskAfter_length, diskAfter_length, hlast, hlast']
    · rw [hend]
      exact r.decisions_after hids hknown

end

/-- A fusion that is proposed. -/
def fuseHint : Hint where
  id := "fuse:fused__conv2d__relu"
  status := .proposed
  chains := ⟨some [["conv1", "relu1"]], []⟩
  groups := ⟨none, []⟩
  evidence := []

/-- A round with one candidate, whose variant is faster. -/
def fuseRound : Round where
  cands := [fuseHint]
  footprint := fun _ => ⟨[("net", "conv1"), ("net", "relu1")], ["conv2d", "relu"], []⟩
  width := 1
  budget := 1
  measure := fun _ => .gated true

/-- The candidate is decided once if the process dies after the first write to `progress.json`. -/
theorem decidedOnce_fuseRound : DecidedOnce fuseRound [fuseHint] [1] := by
  apply (decidedOnce_iff (by decide) _ [1]).mpr
  · refine ⟨fun d' hd' => ?_, trivial⟩
    have hfile : (lastWrite fuseRound ⟨[fuseHint], none⟩ 1).map Prod.fst = some .progress := by
      decide
    rw [hd'] at hfile
    cases hfile
  · intro h hh
    obtain rfl := mem_singleton.mp hh
    decide

/-- The candidate has two records if the process dies after it has written the hints file. -/
theorem not_decidedOnce_fuseRound : ¬DecidedOnce fuseRound [fuseHint] [2] := by
  intro honce
  obtain ⟨h', ev, hget, hev⟩ := honce.evidence fuseHint mem_cons_self
  have htwo : (getHint (finished fuseRound (resumed fuseRound ⟨[fuseHint], none⟩ [2])).hints
      fuseHint.id).map (·.evidence.length) = some 2 := by
    decide
  rw [hget, Option.map_some, hev] at htwo
  simp [fuseHint] at htwo

end ModelBlaster.GraphOpt

import ModelBlaster.Library.PyDict
import Mathlib.Algebra.Order.Field.Rat
import Mathlib.Data.List.Sort
import Mathlib.Data.List.Infix
import ModelBlaster.Library.Transducer

/-!
# Items that are planned again

An op whose cached winner failed in the whole model, and that runs a seed again, puts its item back
into the plan. An item whose problem has no measured outcome stays eligible. Both are counted in the
state of the rounds, by key.

## Main definitions

* `rank`: the items of the profiles;
* `selectFrom`: which of them are selected, and why the others are not;
* `makePlan`: the plan, with its problems;
* `requeue`, `exclude`: the items that are put back;
* `sentKeys`, `markSent`: the items that are sent after a round, and those that are held back;
* `step`: the next step of the process that works on a round, or its death;
* `Event`: what a step shows.

## Main results

* `exists_mem_rank_iff`: the keys of the items are those of the measured ops;
* `selected_iff`: an item is selected if it was not sent before and is within the budget;
* `requeue_spec`: what is put back, and how it is counted;
* `sentKeys_spec`: what is sent, what is held back, and how that is counted.
-/

/-! ## Plans -/

namespace ModelBlaster.SearchFixes

open List PyDict

/-! ### Profiles -/

/-- The shape of an op, its values as JSON texts. -/
abbrev Shape := PyDict String String

/-- An op of a profile. -/
structure ProfiledOp where
  name : String
  op : String
  entry : String
  signatureSha : String
  shape : Shape
  /-- The time of the op, if it was measured. -/
  us : Option ℚ
  /-- The source of its kernel. -/
  seed : String

/-- A profile that was made again without winners that failed in the whole model. -/
structure FallbackStep where
  /-- The ops that lost their winner, by cache key. -/
  ops : PyDict String (List String)
  rejected : PyDict String String
  errors : List String

/-- A profile of an IR. -/
structure Profile where
  ir : String
  ops : List ProfiledOp
  cacheFallback : List FallbackStep

/-- How the keys of items are made. -/
structure ItemKeys where
  /-- `json.dumps(shape, sort_keys=True)` -/
  shapeKey : Shape → String
  /-- The flag fields of a kind, if shapes are made canonical. -/
  canonFields : Option (String → List String)

/-- `item_key` -/
def ItemKeys.itemKey (K : ItemKeys) (entry signatureSha : String) (shape : Shape) : String :=
  entry ++ "|" ++ signatureSha ++ "|" ++ K.shapeKey shape

/-- `canon_shape` -/
def canonShape (shape : Shape) (fields : List String) : Shape :=
  shape.filter fun k => k ∉ fields

/-- The shape that an op is ranked by. -/
def ItemKeys.rankShape (K : ItemKeys) (r : ProfiledOp) : Shape :=
  match K.canonFields with
  | none => r.shape
  | some fields => canonShape r.shape (fields r.op)

/-- The key that an op is ranked by. -/
def ItemKeys.rankKey (K : ItemKeys) (r : ProfiledOp) : String :=
  K.itemKey r.entry r.signatureSha (K.rankShape r)

/-! ### Items -/

/-- The instances of an item in an IR. -/
structure Occurrence where
  ir : String
  ops : List String
  us : ℚ

/-- The instances with one key. -/
structure Item where
  key : String
  op : String
  totalUs : ℚ
  count : ℕ
  occurrences : PyDict String Occurrence

/-- An instance more. -/
def Item.add (it : Item) (ir : String) (r : ProfiledOp) (us : ℚ) : Item :=
  let occ := (it.occurrences.get? ir).getD ⟨ir, [], 0⟩
  { it with
    totalUs := it.totalUs + us
    count := it.count + 1
    occurrences := it.occurrences.set ir ⟨occ.ir, occ.ops ++ [r.name], occ.us + us⟩ }

/-- An op of a profile joins the item with its key; an op without a time joins none. -/
def rankStep (K : ItemKeys) (items : PyDict String Item) (e : String × ProfiledOp) :
    PyDict String Item :=
  match e.2.us with
  | none => items
  | some us =>
    let k := K.rankKey e.2
    let it := (items.get? k).getD ⟨k, e.2.op, 0, 0, PyDict.empty⟩
    items.set k (it.add e.1 e.2 us)

/-- The ops of all profiles, each with its IR. -/
def instancesOf (profiles : List Profile) : List (String × ProfiledOp) :=
  profiles.flatMap fun p => p.ops.map fun r => (p.ir, r)

/-- `rank` -/
def rank (K : ItemKeys) (profiles : List Profile) : List Item :=
  (((instancesOf profiles).foldl (rankStep K) PyDict.empty).items.map Prod.snd).insertionSort
    fun a b => b.totalUs ≤ a.totalUs

/-- The occurrence that stands for an item: the one that takes longest. -/
def Item.representative (it : Item) : Option Occurrence :=
  ((it.occurrences.items.map Prod.snd).insertionSort fun a b => b.us ≤ a.us).head?

/-! ### Selection -/

/-- Why an item is not selected. -/
inductive WhyNot where
  | sentBefore
  | coverageReached
  | topK
  | belowMinShare
deriving DecidableEq, Repr

/-- The budget of a plan. -/
structure PlanOpts where
  coverage : ℚ
  topK : Option ℕ
  minShare : ℚ
  perItem : Bool

/-- An item of a plan. -/
structure PlanItem where
  item : Item
  share : ℚ
  whyNot : Option WhyNot

/-- The item is one that the round works on. -/
def PlanItem.selected (it : PlanItem) : Bool := it.whyNot.isNone

/-- The items from one on; `cum` is the share of those before it, `n` how many are selected. -/
def selectFrom (o : PlanOpts) (exclude : List String) (total : ℚ) :
    ℚ → ℕ → List Item → List PlanItem
  | _, _, [] => []
  | cum, n, it :: items =>
    let share := it.totalUs / total
    let why : Option WhyNot :=
      if it.key ∈ exclude then some .sentBefore
      else if o.coverage ≤ cum then some .coverageReached
      else if o.topK.any (· ≤ n) then some .topK
      else if share < o.minShare then some .belowMinShare
      else none
    ⟨it, share, why⟩ ::
      selectFrom o exclude total (if why = some .sentBefore then cum else cum + share)
        (if why = none then n + 1 else n) items

/-- The time of all items, or 1. -/
def totalOf (items : List Item) : ℚ :=
  if (items.map Item.totalUs).sum = 0 then 1 else (items.map Item.totalUs).sum

/-! ### Problems -/

/-- A problem of a plan. -/
structure Problem where
  /-- Its id, if the plan has a problem for each item. -/
  id : Option String
  ir : String
  opNames : List String
  keys : List String
  estUs : ℚ

/-- `p.get("id", p["ir"])` -/
def Problem.pid (p : Problem) : String := p.id.getD p.ir

/-- `re.sub(r"[^A-Za-z0-9_]+", "_", s)`, with `run` where the last character was replaced. -/
def wordChars (run : Bool) : List Char → List Char
  | [] => []
  | c :: cs =>
    if c.isAlphanum || c = '_' then c :: wordChars false cs
    else if run then wordChars true cs
    else '_' :: wordChars true cs

/-- An item joins the problem of its IR, or is a problem of its own. -/
def problemStep (perItem : Bool) (byIr : PyDict String Problem) (it : PlanItem) :
    PyDict String Problem :=
  match it.selected, it.item.representative with
  | true, some rep =>
    if perItem then
      let pid := String.ofList (wordChars false
        (rep.ir ++ "__" ++ it.item.op ++ "_" ++ toString byIr.items.length).toList)
      byIr.set pid ⟨some pid, rep.ir, rep.ops, [it.item.key], rep.us⟩
    else
      let p := (byIr.get? rep.ir).getD ⟨none, rep.ir, [], [], 0⟩
      byIr.set rep.ir
        { p with
          opNames := p.opNames ++ rep.ops.filter (· ∉ p.opNames)
          keys := p.keys ++ [it.item.key]
          estUs := p.estUs + rep.us }
  | _, _ => byIr

/-- `problems` -/
def problems (perItem : Bool) (items : List PlanItem) : List Problem :=
  ((items.foldl (problemStep perItem) PyDict.empty).items.map Prod.snd).insertionSort
    fun a b => b.estUs ≤ a.estUs

/-- A plan. -/
structure Plan where
  items : List PlanItem
  problems : List Problem

/-- `make_plan` -/
def makePlan (K : ItemKeys) (o : PlanOpts) (profiles : List Profile) (exclude : List String) :
    Plan :=
  let ranked := rank K profiles
  let items := selectFrom o exclude (totalOf ranked) 0 0 ranked
  ⟨items, problems o.perItem items⟩

/-! ### The items of the ranking -/

theorem Item.add_key (it : Item) (ir : String) (r : ProfiledOp) (us : ℚ) :
    (it.add ir r us).key = it.key := rfl

/-- The items are stored under their keys, which are those of the measured ops so far. -/
theorem foldl_rankStep (K : ItemKeys) (l : List (String × ProfiledOp)) :
    (∀ k it, (l.foldl (rankStep K) PyDict.empty).get? k = some it → it.key = k) ∧
      ∀ k, k ∈ (l.foldl (rankStep K) PyDict.empty).keys ↔
        ∃ e ∈ l, e.2.us ≠ none ∧ K.rankKey e.2 = k := by
  induction l using reverseRecOn with
  | nil => simp [PyDict.keys, PyDict.empty, PyDict.get?]
  | append_singleton l e ih =>
    obtain ⟨hkey, hmem⟩ := ih
    rw [foldl_append, foldl_cons, foldl_nil, rankStep]
    cases hus : e.2.us with
    | none =>
      refine ⟨hkey, fun k => ?_⟩
      simp [hmem, hus, or_and_right, exists_or]
    | some us =>
      constructor
      · intro k it h
        rw [get?_set] at h
        split_ifs at h with hk
        · cases h
          rw [Item.add_key, hk]
          cases hget : (l.foldl (rankStep K) PyDict.empty).get? (K.rankKey e.2) with
          | none => rfl
          | some it' => exact hkey _ _ hget
        · exact hkey k it h
      · intro k
        rw [mem_keys_set, hmem]
        simp only [mem_append, mem_singleton, or_and_right, exists_or, exists_eq_left,
          hus, ne_eq, reduceCtorEq, not_false_eq_true, true_and]
        exact ⟨fun h => h.symm.imp_right Eq.symm, fun h => (h.imp_right Eq.symm).symm⟩

/-- The keys of the items are those of the measured ops. -/
theorem exists_mem_rank_iff (K : ItemKeys) (profiles : List Profile) (k : String) :
    (∃ it ∈ rank K profiles, it.key = k) ↔
      ∃ p ∈ profiles, ∃ r ∈ p.ops, r.us ≠ none ∧ K.rankKey r = k := by
  obtain ⟨hkey, hmem⟩ := foldl_rankStep K (instancesOf profiles)
  have hrank : (∃ it ∈ rank K profiles, it.key = k) ↔
      k ∈ ((instancesOf profiles).foldl (rankStep K) PyDict.empty).keys := by
    simp only [rank, mem_insertionSort, mem_map]
    constructor
    · rintro ⟨it, ⟨⟨k', _⟩, hin, rfl⟩, rfl⟩
      have hget := mem_items_iff.1 hin
      rw [hkey _ _ hget]
      exact mem_keys_of_get? hget
    · intro h
      obtain ⟨it, hget⟩ := mem_keys_iff.1 h
      exact ⟨it, ⟨(k, it), mem_items_iff.2 hget, rfl⟩, hkey _ _ hget⟩
  rw [hrank, hmem]
  simp only [instancesOf, mem_flatMap, mem_map]
  constructor
  · rintro ⟨_, ⟨p, hp, r, hr, rfl⟩, hus, hk⟩
    exact ⟨p, hp, r, hr, hus, hk⟩
  · rintro ⟨p, hp, r, hr, hus, hk⟩
    exact ⟨_, ⟨p, hp, r, hr, rfl⟩, hus, hk⟩

/-! ### The selected items -/

/-- An item is within the budget, after those before it. -/
structure Qualifies (o : PlanOpts) (before : List PlanItem) (it : PlanItem) : Prop where
  coverage : ((before.filter fun b => b.whyNot ≠ some .sentBefore).map PlanItem.share).sum
    < o.coverage
  topK : ∀ k ∈ o.topK, (before.filter PlanItem.selected).length < k
  minShare : o.minShare ≤ it.share

theorem map_item_selectFrom (o : PlanOpts) (exclude : List String) (total : ℚ) (items : List Item) :
    ∀ (cum : ℚ) (n : ℕ), (selectFrom o exclude total cum n items).map PlanItem.item = items := by
  induction items with
  | nil => exact fun _ _ => rfl
  | cons it items ih => exact fun _ _ => congrArg (it :: ·) (ih _ _)

variable {after : List PlanItem} {it : PlanItem} {exclude : List String} {o : PlanOpts}

/-- An item is selected if it is not excluded and within the budget, with what the loop has counted
before it. -/
theorem selected_selectFrom_iff {total : ℚ} (items : List Item) (before : List PlanItem) :
    ∀ {cum : ℚ} {n : ℕ}, selectFrom o exclude total cum n items = before ++ it :: after →
      (it.selected = true ↔ it.item.key ∉ exclude ∧
        cum + ((before.filter fun b => b.whyNot ≠ some .sentBefore).map PlanItem.share).sum
          < o.coverage ∧
        (∀ k ∈ o.topK, n + (before.filter PlanItem.selected).length < k) ∧
        o.minShare ≤ it.share) := by
  induction items generalizing before with
  | nil => intro cum n h; simp [selectFrom] at h
  | cons x items ih =>
    intro cum n h
    cases before with
    | nil =>
      obtain ⟨rfl, -⟩ := List.cons.inj h
      have htop : o.topK.any (· ≤ n) = true ↔ ¬∀ k ∈ o.topK, n < k := by
        cases o.topK <;> simp
      simp only [PlanItem.selected, filter_nil, map_nil, sum_nil, add_zero, length_nil]
      split_ifs with hex hcov htop' hmin <;> grind
    | cons b before =>
      obtain ⟨rfl, htail⟩ := List.cons.inj h
      rw [ih before htail]
      simp only [filter_cons, PlanItem.selected]
      split_ifs <;> simp_all [add_assoc, Nat.add_comm 1]

/-- An item is selected if it was not sent before and is within the budget. -/
theorem selected_iff {K : ItemKeys} {profiles : List Profile} {before : List PlanItem}
    (h : (makePlan K o profiles exclude).items = before ++ it :: after) :
    it.selected = true ↔ it.item.key ∉ exclude ∧ Qualifies o before it := by
  rw [selected_selectFrom_iff _ before h, zero_add]
  simp only [Nat.zero_add]
  exact ⟨fun ⟨hk, hc, ht, hm⟩ => ⟨hk, hc, ht, hm⟩, fun ⟨hk, hq⟩ => ⟨hk, hq.1, hq.2, hq.3⟩⟩

end ModelBlaster.SearchFixes

namespace ModelBlaster.SearchFixes

open List

/-! ### State -/

/-- How often a key was counted, and in which rounds. -/
structure Count where
  n : ℕ
  rounds : List ℕ
deriving DecidableEq, Repr

/-- How often a key was held back, and in which rounds. -/
structure Retry extends Count where
  gaveUp : Option ℕ
deriving DecidableEq, Repr

/-- What `state.json` keeps of the rounds. -/
structure State where
  sent : List String
  requeued : PyDict String Count
  sentRetry : PyDict String Retry
  /-- The number of rounds that are recorded. -/
  rounds : ℕ

/-- What the state keeps of the re-queues of a key. -/
def State.requeuedOf (s : State) (k : String) : Count := (s.requeued.get? k).getD ⟨0, []⟩

/-- What the state keeps of the retries of a key. -/
def State.retryOf (s : State) (k : String) : Count :=
  ((s.sentRetry.get? k).map Retry.toCount).getD ⟨0, []⟩

/-- A round more. -/
def Count.add (c : Count) (r : ℕ) : Count := ⟨c.n + 1, c.rounds ++ [r]⟩

/-! ### Switches -/

/-- `FALLBACK_MODES` -/
inductive FallbackMode where
  | on
  | route
  | requeue
  | off
deriving DecidableEq, Repr

/-- The switches of a run. -/
structure Fixes where
  fallback : FallbackMode
  requeueMax : ℕ
  /-- `MB_SENT_ON_SUCCESS` -/
  sentOnSuccess : Bool
  /-- `MB_SENT_RETRY_MAX` -/
  sentRetryMax : ℕ

/-- `Fixes.requeueing` -/
def Fixes.requeueing (f : Fixes) : Bool :=
  (f.fallback == .on || f.fallback == .requeue) && 0 < f.requeueMax

/-! ### Re-queues -/

/-- Why an op lost its winner. -/
structure Stuck where
  rejected : List String
  errors : List String

/-- An op that lost a winner in a step, under the cache key. -/
def stuckStep (seed : PyDict String String) (step : FallbackStep) (out : PyDict String Stuck)
    (e : String × String) : PyDict String Stuck :=
  match seed.get? e.2 with
  | none => out
  | some source =>
    if "cache:".toList <+: source.toList then out
    else
      let d := (out.get? e.2).getD ⟨[], []⟩
      let rejected := match step.rejected.get? e.1 with
        | some imp => if imp ≠ "" ∧ imp ∉ d.rejected then d.rejected ++ [imp] else d.rejected
        | none => d.rejected
      let errors := d.errors ++ step.errors.filter fun x =>
        e.2.toList <:+: x.toList ∧ x ∉ d.errors
      out.set e.2 ⟨rejected, errors⟩

/-- `stuck_after_fallback` -/
def stuckAfterFallback (p : Profile) : PyDict String Stuck :=
  let seed := PyDict.ofList (p.ops.map fun r => (r.name, r.seed))
  p.cacheFallback.foldl (fun out step =>
    (step.ops.items.flatMap fun e => e.2.map fun n => (e.1, n)).foldl
      (stuckStep seed step) out) PyDict.empty

/-- `item_keys_of`: the exact key of an op, and the canonical one. -/
def ItemKeys.itemKeysOf (K : ItemKeys) (r : ProfiledOp) : List String :=
  let exact := K.itemKey r.entry r.signatureSha r.shape
  if K.canonFields.isSome ∧ K.rankKey r ≠ exact then [exact, K.rankKey r] else [exact]

/-- What is told about an item that is put back. -/
structure Note where
  op : String
  kind : String
  ir : String
  stuck : Stuck

/-- The keys of the ops that still run a seed, each with its note. -/
def stuckKeys (K : ItemKeys) (profiles : List Profile) : List (String × Note) :=
  profiles.flatMap fun p =>
    p.ops.flatMap fun r =>
      match (stuckAfterFallback p).get? r.name with
      | none => []
      | some stuck => (K.itemKeysOf r).map fun k => (k, ⟨r.name, r.op, p.ir, stuck⟩)

/-- What `requeue` has found so far. -/
structure Requeued where
  keys : List String
  notes : PyDict String Note
  done : PyDict String Count

/-- A key of an op that still runs a seed. -/
def requeueStep (sent : List String) (r maxPerKey : ℕ) (acc : Requeued) (e : String × Note) :
    Requeued :=
  if e.1 ∉ sent ∨ e.1 ∈ acc.keys then acc
  else
    let rec' := (acc.done.get? e.1).getD ⟨0, []⟩
    let done := acc.done.set e.1 rec'
    -- a resumed round has counted the key already
    if r ∈ rec'.rounds then ⟨acc.keys ++ [e.1], acc.notes.set e.1 e.2, done⟩
    else if rec'.n < maxPerKey then
      ⟨acc.keys ++ [e.1], acc.notes.set e.1 e.2, done.set e.1 (rec'.add r)⟩
    else { acc with done := done }

/-- `requeue` -/
def requeue (K : ItemKeys) (profiles : List Profile) (s : State) (r maxPerKey : ℕ) : Requeued :=
  (stuckKeys K profiles).foldl (requeueStep s.sent r maxPerKey) ⟨[], PyDict.empty, s.requeued⟩

/-- What `exclude` leaves: the keys that are not planned, those that are put back, and the state. -/
structure Excluded where
  excluded : List String
  again : List String
  state : State

/-- `Fixes.exclude` -/
def exclude (f : Fixes) (K : ItemKeys) (profiles : List Profile) (s : State) (r : ℕ) : Excluded :=
  if f.requeueing then
    let q := requeue K profiles s r f.requeueMax
    ⟨s.sent.filter (· ∉ q.keys), q.keys, { s with requeued := q.done }⟩
  else ⟨s.sent, [], s⟩

/-! ### Results -/

/-- The result of a problem. -/
structure Result where
  problem : String
  finalOk : Bool
  /-- An accepted fusion absorbed the ops of the problem. -/
  externalStop : Bool
  /-- `is_infra_result` -/
  infra : Bool
  baselinePartitionUs : Option ℚ
  finalError : Option String

/-- `result_measured` -/
def resultMeasured : Option Result → Bool
  | none => false
  | some res =>
    res.finalOk || res.externalStop || !res.infra && res.baselinePartitionUs.isSome

/-- `f"{r:02d}"` -/
def twoDigits (r : ℕ) : String := if r < 10 then "0" ++ toString r else toString r

/-- The result of the `i`-th problem: by its name, by the end of its name, else by its place. -/
def resultOf (results : List Result) (count r i : ℕ) (p : Problem) : Option Result :=
  let byName := PyDict.ofList (results.map fun x => (x.problem, x))
  let name := p.pid ++ "__r" ++ twoDigits r
  match byName.get? name with
  | some res => some res
  | none =>
    match byName.items.find? fun e => name.toList <:+ e.1.toList with
    | some e => some e.2
    | none => if results.length = count then results[i]? else none

/-- The result of each key, by the problems of the plan. -/
def keyResults (problems : List Problem) (results : List Result) (r : ℕ) :
    PyDict String (Option Result) :=
  PyDict.ofList (problems.zipIdx.flatMap fun e =>
    e.1.keys.map fun k => (k, resultOf results problems.length r e.2 e.1))

/-- Why an item is held back. -/
def heldReason : Option Result → String
  | none => "no measured outcome: no result"
  | some res =>
    let error := match res.finalError with
      | some e => if e = "" then "baseline not timed" else e
      | none => "baseline not timed"
    "no measured outcome: " ++ String.ofList (error.toList.take 160)

/-- What `sent_keys` has decided so far. -/
structure Sent where
  out : List String
  held : PyDict String String
  retry : PyDict String Retry

/-- The decision on a selected item. -/
def sentStep (keyRes : PyDict String (Option Result)) (r maxRetries : ℕ) (acc : Sent)
    (k : String) : Sent :=
  match keyRes.get? k with
  | none => { acc with out := acc.out ++ [k] }
  | some res =>
    if resultMeasured res then { acc with out := acc.out ++ [k] }
    else
      let rec' := (acc.retry.get? k).getD ⟨⟨0, []⟩, none⟩
      let retry := acc.retry.set k rec'
      -- a resumed round has counted the key already
      if r ∈ rec'.rounds then
        { acc with held := acc.held.set k "requeued (resumed round)", retry := retry }
      else if rec'.n < maxRetries then
        { acc with
          held := acc.held.set k (heldReason res)
          retry := retry.set k { rec' with toCount := rec'.toCount.add r } }
      else
        { acc with out := acc.out ++ [k], retry := retry.set k { rec' with gaveUp := some r } }

/-- The keys of the selected items of a plan. -/
def Plan.selectedKeys (plan : Plan) : List String :=
  (plan.items.filter PlanItem.selected).map fun it => it.item.key

/-- `sent_keys` -/
def sentKeys (selected : List String) (keyRes : PyDict String (Option Result))
    (retry : PyDict String Retry) (r maxRetries : ℕ) : Sent :=
  selected.foldl (sentStep keyRes r maxRetries) ⟨[], PyDict.empty, retry⟩

/-- `Fixes.mark_sent`: the keys that are held back, and the state. -/
def markSent (f : Fixes) (selected : List String) (problems : List Problem)
    (results : List Result) (s : State) (r : ℕ) : List String × State :=
  if f.sentOnSuccess then
    let q := sentKeys selected (keyResults problems results r) s.sentRetry r f.sentRetryMax
    (q.held.keys, { s with sent := s.sent ++ q.out.filter (· ∉ s.sent), sentRetry := q.retry })
  else ([], { s with sent := s.sent ++ selected })

/-! ### What is put back -/

/-- The count of a key. -/
def countOf (done : PyDict String Count) (k : String) : Count := (done.get? k).getD ⟨0, []⟩

theorem countOf_set (done : PyDict String Count) (k k' : String) (c : Count) :
    countOf (done.set k c) k' = if k' = k then c else countOf done k' := by
  unfold countOf
  rw [PyDict.get?_set]
  split_ifs <;> rfl

/-- A key that is put back is a sent key of an op that still runs a seed, with a count below the
maximum; it is counted once, and no other key is. -/
theorem requeue_spec {K : ItemKeys} {profiles : List Profile} {s : State} {r maxPerKey : ℕ}
    (hr : ∀ k, r ∉ (s.requeuedOf k).rounds) : ∀ k,
    (k ∈ (requeue K profiles s r maxPerKey).keys ↔
      k ∈ (stuckKeys K profiles).map Prod.fst ∧ k ∈ s.sent ∧ (s.requeuedOf k).n < maxPerKey) ∧
    countOf (requeue K profiles s r maxPerKey).done k =
      if k ∈ (requeue K profiles s r maxPerKey).keys then (s.requeuedOf k).add r
      else s.requeuedOf k := by
  unfold requeue
  induction stuckKeys K profiles using reverseRecOn with
  | nil => exact fun k => ⟨by simp, rfl⟩
  | append_singleton l e ih =>
    intro k
    rw [foldl_append, foldl_cons, foldl_nil, requeueStep]
    set acc := l.foldl (requeueStep s.sent r maxPerKey) ⟨[], PyDict.empty, s.requeued⟩
    obtain ⟨hk, hcount⟩ := ih k
    obtain ⟨he, hcounte⟩ := ih e.1
    by_cases hskip : e.1 ∉ s.sent ∨ e.1 ∈ acc.keys
    · -- the key was never sent, or is put back already
      rw [if_pos hskip, hcount]
      exact ⟨by grind, rfl⟩
    rw [if_neg hskip]
    obtain ⟨hsent, hnew⟩ := not_or.mp hskip
    rw [if_neg hnew] at hcounte
    -- what `done` keeps of the key is what the state keeps
    have hrec : (acc.done.get? e.1).getD ⟨0, []⟩ = s.requeuedOf e.1 := hcounte
    simp only [hrec, if_neg (hr e.1)]
    by_cases hlt : (s.requeuedOf e.1).n < maxPerKey
    · simp only [if_pos hlt, countOf_set, mem_append, mem_singleton]
      refine ⟨by grind, ?_⟩
      by_cases hke : k = e.1
      · simp [hke]
      · simp [hke, hcount]
    · simp only [if_neg hlt, countOf_set]
      refine ⟨by grind, ?_⟩
      by_cases hke : k = e.1
      · simp [hke, hnew]
      · simp [hke, hcount]

/-! ### What is sent -/

/-- What the retries keep of a key. -/
def retryCount (retry : PyDict String Retry) (k : String) : Count :=
  ((retry.get? k).map Retry.toCount).getD ⟨0, []⟩

theorem retryCount_set (retry : PyDict String Retry) (k k' : String) (c : Retry) :
    retryCount (retry.set k c) k' = if k' = k then c.toCount else retryCount retry k' := by
  unfold retryCount
  rw [PyDict.get?_set]
  split_ifs <;> rfl

/-- The problem of a key has no measured outcome. -/
def Lost (keyRes : PyDict String (Option Result)) (k : String) : Prop :=
  ∃ res, keyRes.get? k = some res ∧ resultMeasured res = false

/-- A selected key is held back if its problem has no measured outcome and it was held back less
than the maximum, and is sent otherwise; a key that is held back is counted once, and no other
key is. -/
theorem sentKeys_spec {selected : List String} {keyRes : PyDict String (Option Result)}
    {retry : PyDict String Retry} {r maxRetries : ℕ} (hr : ∀ k, r ∉ (retryCount retry k).rounds) :
    ∀ k,
    (k ∈ (sentKeys selected keyRes retry r maxRetries).held.keys ↔
      k ∈ selected ∧ Lost keyRes k ∧ (retryCount retry k).n < maxRetries) ∧
    (k ∈ (sentKeys selected keyRes retry r maxRetries).out ↔
      k ∈ selected ∧ ¬(Lost keyRes k ∧ (retryCount retry k).n < maxRetries)) ∧
    retryCount (sentKeys selected keyRes retry r maxRetries).retry k =
      if k ∈ (sentKeys selected keyRes retry r maxRetries).held.keys then
        (retryCount retry k).add r
      else retryCount retry k := by
  unfold sentKeys
  induction selected using reverseRecOn with
  | nil => exact fun k => ⟨by simp [PyDict.keys, PyDict.empty], by simp, rfl⟩
  | append_singleton l x ih =>
    intro k
    rw [foldl_append, foldl_cons, foldl_nil, sentStep]
    set acc := l.foldl (sentStep keyRes r maxRetries) ⟨[], PyDict.empty, retry⟩
    obtain ⟨hheld, hout, hcount⟩ := ih k
    obtain ⟨hheldx, houtx, hcountx⟩ := ih x
    have hlost : ∀ res, keyRes.get? x = some res →
        (Lost keyRes x ↔ resultMeasured res = false) := fun res h => by simp [Lost, h]
    cases hres : keyRes.get? x with
    | none =>
      have hnot : ¬Lost keyRes x := by simp [Lost, hres]
      exact ⟨by grind, by grind, hcount⟩
    | some res =>
      by_cases hm : resultMeasured res = true
      · have hnot : ¬Lost keyRes x := by simp [hlost res hres, hm]
        simp only [if_pos hm, mem_append, mem_singleton]
        exact ⟨by grind, by grind, hcount⟩
      simp only [if_neg hm]
      have hc : ((acc.retry.get? x).getD ⟨⟨0, []⟩, none⟩).toCount = retryCount acc.retry x := by
        cases h : acc.retry.get? x <;> simp [retryCount, h]
      generalize (acc.retry.get? x).getD ⟨⟨0, []⟩, none⟩ = c at hc
      by_cases hin : x ∈ acc.held.keys
      · -- an item with the same key was held back already
        have hround : r ∈ c.rounds := by
          rw [hc, hcountx, if_pos hin]
          exact mem_append_right _ (mem_singleton_self r)
        simp only [if_pos hround, PyDict.mem_keys_set, retryCount_set]
        refine ⟨by grind, by grind, ?_⟩
        by_cases hkx : k = x
        · simp [hkx, hc, hcountx, hin]
        · simp [hkx, hcount]
      rw [hcountx, if_neg hin] at hc
      have hround : r ∉ c.rounds := hc ▸ hr x
      rw [if_neg hround]
      by_cases hlt : (retryCount retry x).n < maxRetries
      · have hn : c.n < maxRetries := hc ▸ hlt
        simp only [if_pos hn, PyDict.mem_keys_set, retryCount_set]
        refine ⟨by grind, by grind, ?_⟩
        by_cases hkx : k = x
        · simp [hkx, hc]
        · simp [hkx, hcount]
      · have hn : ¬c.n < maxRetries := hc ▸ hlt
        simp only [if_neg hn, retryCount_set, mem_append, mem_singleton]
        refine ⟨by grind, by grind, ?_⟩
        by_cases hkx : k = x
        · simp [hkx, hc, hin]
        · simp [hkx, hcount]

/-! ### The state -/

/-- What `exclude` does to a key, and what it leaves alone. -/
structure ExcludeSpec (f : Fixes) (K : ItemKeys) (profiles : List Profile) (s : State) (r : ℕ)
    (e : Excluded) : Prop where
  mem_again : ∀ k, k ∈ e.again ↔ f.requeueing = true ∧ k ∈ (stuckKeys K profiles).map Prod.fst ∧
    k ∈ s.sent ∧ (s.requeuedOf k).n < f.requeueMax
  mem_excluded : ∀ k, k ∈ e.excluded ↔ k ∈ s.sent ∧ k ∉ e.again
  requeuedOf : ∀ k, e.state.requeuedOf k =
    if k ∈ e.again then (s.requeuedOf k).add r else s.requeuedOf k

theorem exclude_state (f : Fixes) (K : ItemKeys) (profiles : List Profile) (s : State) (r : ℕ) :
    (exclude f K profiles s r).state =
      { s with requeued := (exclude f K profiles s r).state.requeued } := by
  unfold exclude
  split_ifs <;> rfl

variable {r : ℕ} {s : State}

theorem exclude_spec (f : Fixes) (K : ItemKeys) (profiles : List Profile)
    (hr : ∀ k, r ∉ (s.requeuedOf k).rounds) :
    ExcludeSpec f K profiles s r (exclude f K profiles s r) := by
  unfold exclude
  by_cases hon : f.requeueing = true
  · rw [if_pos hon]
    have hspec := @requeue_spec K profiles s r f.requeueMax hr
    exact
      { mem_again := fun k => by simp only [hon, true_and]; exact (hspec k).1
        mem_excluded := fun k => by simp
        requeuedOf := fun k => (hspec k).2 }
  · rw [if_neg hon]
    exact
      { mem_again := fun k => by simp [hon]
        mem_excluded := fun k => by simp
        requeuedOf := fun k => by simp }

/-- What `mark_sent` does to a key, and what it leaves alone. -/
structure MarkSpec (f : Fixes) (selected : List String) (s : State) (r : ℕ)
    (q : List String × State) : Prop where
  of_mem_held : ∀ k ∈ q.1, f.sentOnSuccess = true ∧ k ∈ selected ∧
    (s.retryOf k).n < f.sentRetryMax
  mem_sent : ∀ k, k ∈ q.2.sent ↔ k ∈ s.sent ∨ k ∈ selected ∧ k ∉ q.1
  retryOf : ∀ k, q.2.retryOf k = if k ∈ q.1 then (s.retryOf k).add r else s.retryOf k

theorem markSent_state (f : Fixes) (selected : List String) (problems : List Problem)
    (results : List Result) (s : State) (r : ℕ) :
    (markSent f selected problems results s r).2 =
      { s with
        sent := (markSent f selected problems results s r).2.sent
        sentRetry := (markSent f selected problems results s r).2.sentRetry } := by
  unfold markSent
  split_ifs <;> rfl

theorem markSent_spec (f : Fixes) (selected : List String) (problems : List Problem)
    (results : List Result) (hr : ∀ k, r ∉ (s.retryOf k).rounds) :
    MarkSpec f selected s r (markSent f selected problems results s r) := by
  unfold markSent
  by_cases hon : f.sentOnSuccess = true
  · rw [if_pos hon]
    have hspec := @sentKeys_spec selected (keyResults problems results r) s.sentRetry r
      f.sentRetryMax hr
    exact
      { of_mem_held := fun k hk => ⟨hon, ((hspec k).1.mp hk).1, ((hspec k).1.mp hk).2.2⟩
        mem_sent := fun k => by
          grind
        retryOf := fun k => (hspec k).2.2 }
  · rw [if_neg hon]
    exact
      { of_mem_held := fun k hk => absurd hk not_mem_nil
        mem_sent := fun k => by simp
        retryOf := fun k => by simp [State.retryOf] }

end ModelBlaster.SearchFixes

/-! ## Rounds of processes that die -/

namespace ModelBlaster.SearchFixes

/-! ### Files -/

/-- What of a move decides how a round goes on. -/
structure RoundMove where
  kernel : Bool
  stop : Bool
deriving DecidableEq, Repr

/-- The phases of a round that `progress.json` keeps. -/
structure Progress where
  profile : Option (List Profile)
  controller : Option RoundMove
  plan : Option Plan

/-- `state.json`, and the `progress.json` of the round that it does not record yet. -/
structure Disk where
  state : State
  progress : Progress

/-- The configuration of a run. -/
structure Flow extends Fixes where
  keys : ItemKeys
  /-- The budget of the plan of each round. -/
  opts : ℕ → PlanOpts
  /-- The controller ends the run before a round, from the rounds recorded so far. -/
  preStop : ℕ → Bool

/-! ### Processes -/

/-- How far a process is in a round. -/
inductive Proc where
  | idle
  | profiled (profiles : List Profile)
  | moved (profiles : List Profile) (move : RoundMove)
  /-- With the state in memory. -/
  | planned (state : State) (move : RoundMove) (plan : Plan)
  | marked (state : State)

/-- The files, and the process that works on the round. -/
structure Sys where
  disk : Disk
  proc : Proc

/-- A run that has not begun. -/
def Sys.init : Sys := ⟨⟨⟨[], PyDict.empty, PyDict.empty, 0⟩, ⟨none, none, none⟩⟩, .idle⟩

/-- The round is recorded. -/
def State.ended (s : State) : Sys :=
  ⟨⟨{ s with rounds := s.rounds + 1 }, ⟨none, none, none⟩⟩, .idle⟩

/-- What the process is told in a step. -/
structure Answers where
  measured : List Profile
  move : RoundMove
  results : List Result

/-- A process goes on, or dies. -/
inductive Act where
  | go (a : Answers)
  | die

/-- What a step shows. -/
inductive Event where
  | profile
  | controller
  /-- A plan was made, with the keys that are put back. -/
  | plan (again : List String) (plan : Plan)
  /-- The plan was found in `progress.json`. -/
  | resumed
  /-- The results were taken, with the keys that are held back. -/
  | marked (held : List String)
  | nothing
  | state
  | died

/-- The keys that are put back. -/
def Event.again : Event → List String
  | .plan again _ => again
  | _ => []

/-- The keys that are held back. -/
def Event.held : Event → List String
  | .marked held => held
  | _ => []

/-- A process has died. -/
def Event.isDied : Event → Bool
  | .died => true
  | _ => false

/-- The plan is made, unless an earlier process has made it. -/
def planStep (f : Flow) (d : Disk) (profiles : List Profile) (move : RoundMove) : Event × Sys :=
  match d.progress.plan with
  | some plan => (.resumed, ⟨d, .planned d.state move plan⟩)
  | none =>
    let e := exclude f.toFixes f.keys profiles d.state d.state.rounds
    let plan := makePlan f.keys (f.opts d.state.rounds) profiles e.excluded
    (.plan e.again plan,
      ⟨⟨d.state, { d.progress with plan := some plan }⟩, .planned e.state move plan⟩)

/-- The problems of the plan are run, unless the move is one of the graph only. -/
def runStep (f : Flow) (d : Disk) (s : State) (move : RoundMove) (plan : Plan)
    (results : List Result) : Event × Sys :=
  if move.kernel = false ∨ plan.problems.isEmpty = true then (.nothing, ⟨d, .marked s⟩)
  else
    let q := markSent f.toFixes plan.selectedKeys plan.problems results s s.rounds
    (.marked q.1, ⟨d, .marked q.2⟩)

/-- A step of the run. -/
def step (f : Flow) (s : Sys) : Act → Event × Sys
  | .die => (.died, ⟨s.disk, .idle⟩)
  | .go a =>
    match s.proc with
    | .idle =>
      if f.preStop s.disk.state.rounds = true then (.state, s.disk.state.ended)
      else
        let profiles := s.disk.progress.profile.getD a.measured
        (.profile, ⟨⟨s.disk.state, { s.disk.progress with profile := some profiles }⟩,
          .profiled profiles⟩)
    | .profiled profiles =>
      let move := s.disk.progress.controller.getD a.move
      (.controller, ⟨⟨s.disk.state, { s.disk.progress with controller := some move }⟩,
        .moved profiles move⟩)
    | .moved profiles move =>
      if move.stop = true then (.state, s.disk.state.ended)
      else planStep f s.disk profiles move
    | .planned st move plan => runStep f s.disk st move plan a.results
    | .marked st => (.state, st.ended)

end ModelBlaster.SearchFixes

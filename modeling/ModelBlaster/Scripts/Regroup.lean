import ModelBlaster.Library.ListSchedule
import Mathlib.Data.String.Basic
import Mathlib.Tactic.Linarith

/-!
# Regrouping a schedule fixture

`scripts/regroup_gemmini.py` moves the ops of a fixture so that the gemmini ops of every network
instance run in one burst. It adds dependencies between gemmini ops: each waits for the one before
it in its job, and the first of a job waits for the last of every job before. Then it lays the ops
out again, each as early as these dependencies and its tile allow.

Times are rational numbers. The fields of a dispatch and of the fixture that the script copies are
values of a type `ρ`.

## Main definitions

* `Dispatch`, `Fixture`: the fixture;
* `augDeps`: the dependencies with the virtual ones;
* `regroup`: the fixture that is written, and the report;
* `VirtualDep`: a dependency that is added;
* `Feasible`: the fixtures whose start times respect the dependencies;
* `Regrouped`: what the new fixture satisfies.

## Main results

* `mem_augDeps_iff`: the augmented dependencies are those of the fixture and the virtual ones;
* `acyclic_augDeps`: those of a feasible fixture have no cycle;
* `regroup_sound`: a feasible fixture is regrouped;
* `Regrouped.violations_eq_zero` and `Regrouped.overlaps_eq_zero`: the checks of the script find
  nothing in it.
-/

namespace ModelBlaster.Regroup

variable {ρ : Type}

/-! ### The fixture -/

/-- One op of a fixture. -/
structure Dispatch (ρ : Type) where
  /-- Dispatch id within the network, if given. -/
  id : Option ℤ
  /-- Network instance. -/
  jobName : String
  /-- The tile: `CPU_P#0` is gemmini, `CPU_E#0` the vector unit. -/
  hardwareTarget : String
  /-- When the op starts. -/
  startTime : ℚ
  /-- How long it runs. -/
  duration : ℚ
  /-- Keys of the ops it waits for. -/
  dependencies : List String
  /-- The other fields. -/
  rest : ρ
deriving DecidableEq, Repr

/-- When an op ends. -/
def Dispatch.stop (d : Dispatch ρ) : ℚ := d.startTime + d.duration

/-- `d["hardware_target"].startswith("CPU_P")` -/
def Dispatch.onGemmini (d : Dispatch ρ) : Bool :=
  "CPU_P".toList.isPrefixOf d.hardwareTarget.toList

/-- The ops of a fixture by key. -/
abbrev Dispatches (ρ : Type) := PyDict String (Dispatch ρ)

/-- A value of the provenance record. -/
inductive Value (ρ : Type) where
  | null
  | number (x : ℚ)
  | text (s : String)
  | other (v : ρ)
deriving DecidableEq, Repr

/-- A schedule fixture. -/
structure Fixture (ρ : Type) where
  /-- How it was made, if given. -/
  provenance : Option (PyDict String (Value ρ))
  /-- The ops. -/
  dispatches : Dispatches ρ
  /-- The other fields. -/
  rest : ρ

/-- Why no fixture is written. -/
inductive RegroupError where
  /-- `RuntimeError`: the augmented dependencies have a cycle, or name no op. -/
  | topologicalOrderIncomplete (placed total : ℕ)
  /-- `KeyError`. -/
  | key (k : String)
deriving DecidableEq, Repr

/-! ### The gemmini ops by job -/

/-- `(dispatches[n]["start_time"], dispatches[n].get("id", 0))` -/
def sortKey (ds : Dispatches ρ) (n : String) : ℚ ×ₗ ℤ :=
  toLex ((ds.get? n).elim (0, 0) fun d => (d.startTime, d.id.getD 0))

/-- `gem_by_job`: the gemmini ops of every job, by their start. -/
def gemByJob (ds : Dispatches ρ) : PyDict String (List String) :=
  (PyDict.group (fun item : String × Dispatch ρ => item.2.jobName) Prod.fst
    (ds.items.filter fun item => item.2.onGemmini)).mapItems fun _ names =>
      names.insertionSort fun a b => sortKey ds a ≤ sortKey ds b

/-- `job_order` -/
def jobOrder (gem : PyDict String (List String)) : List String :=
  gem.keys.insertionSort (· ≤ ·)

/-! ### The augmented dependencies -/

/-- `aug_deps[k]` -/
def depsOf (aug : PyDict String (List String)) (k : String) : List String := (aug.get? k).getD []

/-- `if prev not in aug_deps[op]: aug_deps[op].append(prev)` -/
def addDep (aug : PyDict String (List String)) (op prev : String) : PyDict String (List String) :=
  if prev ∈ depsOf aug op then aug else aug.set op (depsOf aug op ++ [prev])

/-- `aug_deps` and `last_gemmini_per_job`. -/
structure Aug where
  deps : PyDict String (List String)
  last : PyDict String String

/-- The first gemmini op of a job waits for the last ones of the jobs before, and every other
one for the one before it. -/
def augJob (gem : PyDict String (List String)) (order : List String) (st : Aug) (j : String) :
    Aug :=
  match (gem.get? j).getD [] with
  | [] => st
  | first :: more =>
    let across := ((order.takeWhile (· ≠ j)).filterMap st.last.get?).foldl
      (fun aug prev => addDep aug first prev) st.deps
    { deps := ((first :: more).zip more).foldl (fun aug p => addDep aug p.2 p.1) across
      last := st.last.set j (more.getLastD first) }

/-- `aug_deps`: the dependencies with the virtual ones. -/
def augDeps (ds : Dispatches ρ) : PyDict String (List String) :=
  let gem := gemByJob ds
  ((jobOrder gem).foldl (augJob gem (jobOrder gem))
    ⟨ds.mapItems fun _ d => d.dependencies, PyDict.empty⟩).deps

/-! ### The layout -/

/-- The start that an op has in the fixture. -/
def startOf (ds : Dispatches ρ) (n : String) : ℚ := (ds.get? n).elim 0 Dispatch.startTime

/-- The order in which the ops are laid out: of the ops that are ready the one with the
earliest start in the fixture. -/
def layoutOrder (ds : Dispatches ρ) : List String :=
  KahnLoop.sort (KahnLoop.Policy.least fun a b => startOf ds a ≤ startOf ds b)
    (depsOf (augDeps ds)) ds.keys

/-- What is laid out. -/
def jobs (ds : Dispatches ρ) : ListSchedule.Jobs String String ℚ where
  deps := depsOf (augDeps ds)
  tile n := (ds.get? n).elim "" Dispatch.hardwareTarget
  duration n := (ds.get? n).elim 0 Dispatch.duration
  lower _ ends := ListSchedule.latest 0 ends
  le_lower _ _ _ h := ListSchedule.le_latest h

/-! ### The report -/

/-- `x + 1e-6 < y` -/
def before (x y : ℚ) : Bool := x + 1 / 1000000 < y

/-- `violations`: how many dependencies end after the op starts. -/
def violations (ds : Dispatches ρ) : ℕ :=
  (ds.items.map fun item => item.2.dependencies.countP fun dep =>
    (ds.get? dep).any fun e => before item.2.startTime e.stop).sum

/-- `overlaps`: how many intervals of a tile begin before the one before them ends. -/
def overlaps (ds : Dispatches ρ) : ℕ :=
  let perTile := PyDict.group (fun item : String × Dispatch ρ => item.2.hardwareTarget)
    (fun item => toLex (item.2.startTime, item.2.stop)) ds.items
  (perTile.items.map fun group =>
    let items := group.2.insertionSort (· ≤ ·)
    (items.zip items.tail).countP fun p => before (ofLex p.2).1 (ofLex p.1).2).sum

/-- What `regroup` returns. -/
structure Report (ρ : Type) where
  nDispatches : ℕ
  originalMakespanMs : Value ρ
  regroupedMakespanMs : ℚ
  depViolations : ℕ
  tileOverlaps : ℕ

/-- `new_prov` -/
def newProvenance (old : Option (PyDict String (Value ρ))) (path : String) (makespan : ℚ) :
    PyDict String (Value ρ) :=
  let prov := ((old.getD PyDict.empty).set "regrouped_by" (.text "scripts/regroup_gemmini.py")).set
    "regrouped_source" (.text path)
  (prov.set "original_makespan_ms" ((prov.get? "makespan_ms").getD .null)).set
    "makespan_ms" (.number makespan)

/-- `regroup`: the fixture that is written, and the report. -/
def regroup (fx : Fixture ρ) (path : String) : Except RegroupError (Fixture ρ × Report ρ) :=
  let ds := fx.dispatches
  let order := layoutOrder ds
  if order.length ≠ ds.items.length then
    .error (.topologicalOrderIncomplete order.length ds.items.length)
  else
    match ListSchedule.run (jobs ds) (fun _ => 0) order with
    | .error k => .error (.key k)
    | .ok board =>
      -- every op has been laid out
      let newDispatches := ds.mapItems fun name d =>
        { d with startTime := (board.starts.get? name).getD d.startTime }
      let makespan := ListSchedule.latest 0 (board.ends.items.map Prod.snd)
      let prov := newProvenance fx.provenance path makespan
      .ok ({ fx with provenance := some prov, dispatches := newDispatches }, {
        nDispatches := newDispatches.items.length
        originalMakespanMs := (prov.get? "original_makespan_ms").getD .null
        regroupedMakespanMs := makespan
        depViolations := violations newDispatches
        tileOverlaps := overlaps newDispatches })

/-! ## The augmented dependencies -/

open List PyDict

variable {ds : Dispatches ρ}

/-! ### The gemmini ops by job -/

variable {names rest done : List String} {n j u k : String} {gem : PyDict String (List String)}

/-- The gemmini ops of a job are those of the fixture. -/
theorem mem_gemByJob (h : (gemByJob ds).get? j = some names) :
    n ∈ names ↔ ∃ d, ds.get? n = some d ∧ d.onGemmini = true ∧ d.jobName = j := by
  rw [gemByJob, get?_mapItems] at h
  obtain ⟨g, hg, rfl⟩ := Option.map_eq_some_iff.mp h
  rw [mem_insertionSort, get?_group hg]
  simp only [mem_map, mem_filter, decide_eq_true_eq]
  constructor
  · rintro ⟨⟨k, d⟩, ⟨⟨hmem, hgem⟩, hjob⟩, rfl⟩
    exact ⟨d, mem_items_iff.mp hmem, hgem, hjob⟩
  · rintro ⟨d, hget, hgem, hjob⟩
    exact ⟨(n, d), ⟨⟨mem_items_iff.mpr hget, hgem⟩, hjob⟩, rfl⟩

/-- A gemmini op is one of its job. -/
theorem exists_gemByJob {d : Dispatch ρ} (hget : ds.get? n = some d) (hgem : d.onGemmini = true) :
    ∃ names, (gemByJob ds).get? d.jobName = some names ∧ n ∈ names := by
  have hkey : d.jobName ∈ (gemByJob ds).keys := by
    have hkeys : (gemByJob ds).keys = (PyDict.group (fun item : String × Dispatch ρ =>
        item.2.jobName) Prod.fst (ds.items.filter fun item => item.2.onGemmini)).keys := by
      rw [gemByJob, PyDict.keys, PyDict.mapItems, map_map]
      rfl
    rw [hkeys, mem_keys_group]
    exact ⟨(n, d), mem_filter.mpr ⟨mem_items_iff.mpr hget, hgem⟩, rfl⟩
  obtain ⟨names, hnames⟩ := mem_keys_iff.mp hkey
  exact ⟨names, hnames, (mem_gemByJob hnames).mpr ⟨d, hget, hgem, rfl⟩⟩

/-- No op is listed twice in a job. -/
theorem nodup_gemByJob (h : (gemByJob ds).get? j = some names) : names.Nodup := by
  rw [gemByJob, get?_mapItems] at h
  obtain ⟨g, hg, rfl⟩ := Option.map_eq_some_iff.mp h
  rw [(perm_insertionSort _ g).nodup_iff, get?_group hg]
  exact ((filter_sublist.trans filter_sublist).map Prod.fst).nodup ds.nodup

/-- A job with gemmini ops has one. -/
theorem gemByJob_ne_nil (h : (gemByJob ds).get? j = some names) : names ≠ [] := by
  rw [gemByJob, get?_mapItems] at h
  obtain ⟨g, hg, rfl⟩ := Option.map_eq_some_iff.mp h
  obtain ⟨a, ha, hkey⟩ := mem_keys_group.mp (mem_keys_of_get? hg)
  have hmem : a.1 ∈ g := by
    rw [get?_group hg]
    exact mem_map_of_mem (mem_filter.mpr ⟨ha, by simpa using hkey⟩)
  exact ne_nil_of_mem ((mem_insertionSort _).mpr hmem)

/-- The gemmini ops of a job are listed by their start. -/
theorem pairwise_gemByJob (h : (gemByJob ds).get? j = some names) :
    names.Pairwise fun a b => startOf ds a ≤ startOf ds b := by
  rw [gemByJob, get?_mapItems] at h
  obtain ⟨g, hg, rfl⟩ := Option.map_eq_some_iff.mp h
  refine (pairwise_insertionSort _ g).imp fun {a b} hab => ?_
  have hfst : ∀ n, (ofLex (sortKey ds n)).1 = startOf ds n := fun n => by
    rw [sortKey, startOf]
    cases ds.get? n <;> rfl
  rw [← hfst, ← hfst]
  exact Prod.Lex.monotone_fst _ _ hab

/-! ### What the loop adds -/

/-- The dependencies that are added, `u` to those of `k`: the gemmini op before `k` in its job, and
if `k` is the first one, the last one of a job before. -/
inductive VirtualDep (ds : Dispatches ρ) : String → String → Prop where
  | chain {j : String} {l₁ l₂ : List String} {u k : String}
      (h : (gemByJob ds).get? j = some (l₁ ++ u :: k :: l₂)) : VirtualDep ds u k
  | across {j j' : String} {names rest : List String} {u k : String} (hlt : j' < j)
      (hprev : (gemByJob ds).get? j' = some (names ++ [u]))
      (h : (gemByJob ds).get? j = some (k :: rest)) : VirtualDep ds u k

theorem mem_depsOf_addDep {aug : PyDict String (List String)} {op prev : String} :
    u ∈ depsOf (addDep aug op prev) k ↔ u ∈ depsOf aug k ∨ (k = op ∧ u = prev) := by
  rw [addDep]
  split_ifs with hmem
  · constructor
    · exact Or.inl
    · rintro (h | ⟨rfl, rfl⟩)
      · exact h
      · exact hmem
  · rw [depsOf, get?_set]
    by_cases hk : k = op
    · subst hk
      simp
    · simp [hk, depsOf]

theorem mem_depsOf_foldl {α : Type} {op prev : α → String} {l : List α} {u k : String} :
    ∀ {aug : PyDict String (List String)},
      u ∈ depsOf (l.foldl (fun aug a => addDep aug (op a) (prev a)) aug) k ↔
        u ∈ depsOf aug k ∨ ∃ a ∈ l, k = op a ∧ u = prev a := by
  induction l with
  | nil => simp
  | cons a l ih =>
    intro aug
    rw [foldl_cons, ih, mem_depsOf_addDep, or_assoc]
    simp only [mem_cons, exists_eq_or_imp]

/-- Two ops are neighbours in a list iff the list with its tail pairs them. -/
theorem mem_zip_tail {first : String} {more : List String} :
    (u, k) ∈ (first :: more).zip more ↔ ∃ l₁ l₂, first :: more = l₁ ++ u :: k :: l₂ := by
  induction more generalizing first with
  | nil =>
    refine ⟨fun h => absurd h (by simp), fun ⟨l₁, l₂, h⟩ => ?_⟩
    have := congrArg List.length h
    simp at this
    omega
  | cons x more ih =>
    rw [zip_cons_cons, mem_cons, ih]
    constructor
    · rintro (heq | ⟨l₁, l₂, h⟩)
      · cases heq
        exact ⟨[], more, rfl⟩
      · exact ⟨first :: l₁, l₂, by rw [h, cons_append]⟩
    · rintro ⟨l₁, l₂, h⟩
      cases l₁ with
      | nil =>
        rw [nil_append, List.cons.injEq, List.cons.injEq] at h
        exact Or.inl (by rw [h.1, h.2.1])
      | cons y l₁ =>
        rw [cons_append, List.cons.injEq] at h
        exact Or.inr ⟨l₁, l₂, h.2⟩

/-- What the loop has done after the jobs `done`. -/
structure AugInv (ds : Dispatches ρ) (done : List String) (st : Aug) : Prop where
  last : ∀ j, st.last.get? j =
    if j ∈ done then ((gemByJob ds).get? j).bind List.getLast? else none
  deps : ∀ u k, u ∈ depsOf st.deps k ↔
    u ∈ depsOf (ds.mapItems fun _ d => d.dependencies) k ∨
      ∃ j ∈ done, (∃ l₁ l₂, (gemByJob ds).get? j = some (l₁ ++ u :: k :: l₂)) ∨
        ∃ j' names rest, j' < j ∧ (gemByJob ds).get? j' = some (names ++ [u]) ∧
          (gemByJob ds).get? j = some (k :: rest)

theorem jobOrder_pairwise (gem : PyDict String (List String)) :
    (jobOrder gem).Pairwise (· < ·) := by
  have hle : (jobOrder gem).Pairwise (· ≤ ·) := pairwise_insertionSort _ _
  have hne : (jobOrder gem).Nodup := (perm_insertionSort _ gem.keys).nodup_iff.mpr gem.keys_nodup
  exact (hle.and hne).imp fun ⟨hab, hne⟩ => lt_of_le_of_ne hab hne

theorem mem_jobOrder :
    j ∈ jobOrder gem ↔ j ∈ gem.keys := mem_insertionSort _

/-- The jobs before `j` in the order are those that the loop visits first. -/
private theorem takeWhile_jobOrder (h : done ++ j :: rest = jobOrder gem) :
    (jobOrder gem).takeWhile (· ≠ j) = done := by
  have hnot : ∀ x ∈ done, x ≠ j := by
    have hpair := jobOrder_pairwise gem
    rw [← h, pairwise_append] at hpair
    exact fun x hx => (hpair.2.2 x hx j mem_cons_self).ne
  rw [← h, takeWhile_append_of_pos (by simpa using hnot), takeWhile_cons_of_neg (by simp),
    append_nil]

private theorem augInv_step {st : Aug} (hsplit : done ++ j :: rest = jobOrder (gemByJob ds))
    (h : AugInv ds done st) :
    AugInv ds (done ++ [j]) (augJob (gemByJob ds) (jobOrder (gemByJob ds)) st j) := by
  have hj : j ∈ (gemByJob ds).keys := mem_jobOrder.mp (by rw [← hsplit]; simp)
  obtain ⟨names, hnames⟩ := mem_keys_iff.mp hj
  -- the jobs visited so far are the smaller ones
  have hdone : ∀ j', j' ∈ done ↔ j' ∈ (gemByJob ds).keys ∧ j' < j := by
    have hpair := jobOrder_pairwise (gemByJob ds)
    intro j'
    rw [← mem_jobOrder, ← hsplit]
    rw [← hsplit, pairwise_append] at hpair
    constructor
    · exact fun hj' => ⟨by simp [hj'], hpair.2.2 j' hj' j mem_cons_self⟩
    · rintro ⟨hmem, hlt⟩
      rcases mem_append.mp hmem with hmem | hmem
      · exact hmem
      · rcases mem_cons.mp hmem with rfl | hmem
        · exact absurd hlt (lt_irrefl _)
        · exact absurd (hlt.trans ((pairwise_cons.mp hpair.2.1).1 j' hmem)) (lt_irrefl _)
  cases hcase : names with
  | nil => exact absurd hcase (gemByJob_ne_nil hnames)
  | cons first more =>
    subst hcase
    have hlast : (first :: more).getLast? = some (more.getLastD first) := by
      rw [getLast?_cons, getLastD_eq_getLast?]
    simp only [augJob, hnames, Option.getD_some]
    refine ⟨fun j' => ?_, fun u k => ?_⟩
    · rw [get?_set, h.last]
      by_cases hj' : j' = j
      · subst hj'
        simp [hnames, hlast]
      · simp [hj']
    · rw [@mem_depsOf_foldl (String × String) Prod.snd Prod.fst,
        @mem_depsOf_foldl String (fun _ => first) (fun prev => prev), takeWhile_jobOrder hsplit,
        h.deps, or_assoc, or_assoc]
      refine or_congr_right ?_
      simp only [mem_append, mem_singleton, or_and_right, exists_or, exists_eq_left, mem_filterMap]
      refine or_congr_right ?_
      constructor
      · rintro (⟨prev, ⟨j', hj', hprev⟩, rfl, rfl⟩ | ⟨⟨a, b⟩, hzip, rfl, rfl⟩)
        · rw [h.last, if_pos hj'] at hprev
          obtain ⟨names', hnames', hlast'⟩ := Option.bind_eq_some_iff.mp hprev
          refine Or.inr ⟨j', names'.dropLast, more, ((hdone j').mp hj').2, ?_, hnames⟩
          rw [hnames', dropLast_append_getLast? u hlast']
        · obtain ⟨l₁, l₂, heq⟩ := mem_zip_tail.mp hzip
          exact Or.inl ⟨l₁, l₂, by rw [hnames, heq]⟩
      · rintro (⟨l₁, l₂, heq⟩ | ⟨j', names', rest', hlt, hprev, heq⟩)
        · rw [hnames, Option.some.injEq] at heq
          exact Or.inr ⟨(u, k), mem_zip_tail.mpr ⟨l₁, l₂, heq⟩, rfl, rfl⟩
        · rw [hnames, Option.some.injEq, List.cons.injEq] at heq
          have hj' : j' ∈ done := (hdone j').mpr ⟨mem_keys_of_get? hprev, hlt⟩
          refine Or.inl ⟨u, ⟨j', hj', ?_⟩, heq.1.symm, rfl⟩
          rw [h.last, if_pos hj', hprev]
          simp

/-- The augmented dependencies are those of the fixture and the virtual ones. -/
theorem mem_augDeps_iff :
    u ∈ depsOf (augDeps ds) k ↔
      (∃ d, ds.get? k = some d ∧ u ∈ d.dependencies) ∨ VirtualDep ds u k := by
  have hrun : ∀ rest done st, done ++ rest = jobOrder (gemByJob ds) → AugInv ds done st →
      AugInv ds (jobOrder (gemByJob ds))
        (rest.foldl (augJob (gemByJob ds) (jobOrder (gemByJob ds))) st) := by
    intro rest
    induction rest with
    | nil =>
      intro done st hsplit h
      rw [append_nil] at hsplit
      exact hsplit ▸ h
    | cons j rest ih =>
      intro done st hsplit h
      exact ih (done ++ [j]) _ (by simpa using hsplit) (augInv_step hsplit h)
  have hinv := hrun (jobOrder (gemByJob ds)) []
    ⟨ds.mapItems fun _ d => d.dependencies, PyDict.empty⟩ rfl ⟨fun _ => rfl, by simp⟩
  rw [augDeps, hinv.deps]
  refine or_congr ?_ ?_
  · rw [depsOf, get?_mapItems]
    cases ds.get? k <;> simp
  · constructor
    · rintro ⟨j, -, ⟨l₁, l₂, h⟩ | ⟨j', names, rest, hlt, hprev, h⟩⟩
      · exact .chain h
      · exact .across hlt hprev h
    · rintro (⟨h⟩ | ⟨hlt, hprev, h⟩)
      · exact ⟨_, mem_jobOrder.mpr (mem_keys_of_get? h), Or.inl ⟨_, _, h⟩⟩
      · exact ⟨_, mem_jobOrder.mpr (mem_keys_of_get? h), Or.inr ⟨_, _, _, hlt, hprev, h⟩⟩

/-! ### Feasible fixtures -/

/-- The fixtures that are regrouped: durations are positive, and the dependencies of an op are ops
of its job that end before it starts. -/
structure Feasible (ds : Dispatches ρ) : Prop where
  duration_pos : ∀ item ∈ ds.items, 0 < item.2.duration
  dep_end_le : ∀ item ∈ ds.items, ∀ dep ∈ item.2.dependencies, ∃ other ∈ ds.items,
    other.1 = dep ∧ other.2.jobName = item.2.jobName ∧ other.2.stop ≤ item.2.startTime

/-- A virtual dependency is between gemmini ops, of one job or of an earlier and a later one. -/
theorem VirtualDep.exists_get? (h : VirtualDep ds u k) :
    ∃ du dk, ds.get? u = some du ∧ ds.get? k = some dk ∧ du.onGemmini = true ∧
      dk.onGemmini = true ∧ du.jobName ≤ dk.jobName := by
  cases h with
  | chain h =>
    obtain ⟨du, hdu, hgu, hju⟩ := (mem_gemByJob h).mp (by simp : u ∈ _)
    obtain ⟨dk, hdk, hgk, hjk⟩ := (mem_gemByJob h).mp (by simp : k ∈ _)
    exact ⟨du, dk, hdu, hdk, hgu, hgk, (hju.trans hjk.symm).le⟩
  | across hlt hprev h =>
    obtain ⟨du, hdu, hgu, hju⟩ := (mem_gemByJob hprev).mp (by simp : u ∈ _)
    obtain ⟨dk, hdk, hgk, hjk⟩ := (mem_gemByJob h).mp (by simp : k ∈ _)
    exact ⟨du, dk, hdu, hdk, hgu, hgk, hju ▸ hjk ▸ hlt.le⟩

/-- All augmented dependencies are ops of the fixture. -/
theorem Feasible.augDeps_subset (h : Feasible ds) (k : String) :
    depsOf (augDeps ds) k ⊆ ds.keys := by
  intro u hu
  rcases mem_augDeps_iff.mp hu with ⟨d, hget, hdep⟩ | hvirt
  · obtain ⟨other, hother, rfl, -, -⟩ := h.dep_end_le _ (mem_items_iff.mpr hget) u hdep
    exact mem_map_of_mem hother
  · obtain ⟨du, -, hdu, -⟩ := hvirt.exists_get?
    exact mem_keys_of_get? hdu

/-- The place of an op among the gemmini ops of its job. -/
def placeInJob (ds : Dispatches ρ) (j n : String) : ℕ := (((gemByJob ds).get? j).getD []).idxOf n

/-- Along every augmented dependency the job, the start or the place in the job increases. -/
def rank (ds : Dispatches ρ) (n : String) : String ×ₗ ℚ ×ₗ ℕ :=
  let job := (ds.get? n).elim "" Dispatch.jobName
  toLex (job, toLex (startOf ds n, placeInJob ds job n))

/-- The augmented dependencies have no cycle. -/
theorem Feasible.acyclic_augDeps (h : Feasible ds) (nodes : List String) :
    EdgeList.Acyclic (KahnLoop.edges (depsOf (augDeps ds)) nodes) := by
  refine EdgeList.acyclic_of_rank (rank ds) fun u k huk => ?_
  obtain ⟨-, hu⟩ := KahnLoop.mem_edges.mp huk
  rcases mem_augDeps_iff.mp hu with ⟨d, hget, hdep⟩ | hvirt
  · -- a dependency of the fixture ends before, so it starts before
    obtain ⟨⟨u', e⟩, hother, rfl, hjob, hstop⟩ :=
      h.dep_end_le _ (mem_items_iff.mpr hget) u hdep
    have hpos := h.duration_pos _ hother
    have hstart : e.startTime < d.startTime := (lt_add_of_pos_right _ hpos).trans_le hstop
    simp only [rank, startOf, hget, mem_items_iff.mp hother, Option.elim_some]
    rw [Prod.Lex.toLex_lt_toLex]
    exact Or.inr ⟨hjob, Prod.Lex.toLex_lt_toLex.mpr (Or.inl hstart)⟩
  · cases hvirt with
    | @chain j l₁ l₂ _ _ hgem =>
      obtain ⟨du, hdu, -, hju⟩ := (mem_gemByJob hgem).mp (by simp : u ∈ _)
      obtain ⟨dk, hdk, -, hjk⟩ := (mem_gemByJob hgem).mp (by simp : k ∈ _)
      have hnd := nodup_gemByJob hgem
      have hle : startOf ds u ≤ startOf ds k := by
        have hpair := (pairwise_append.mp (pairwise_gemByJob hgem)).2.1
        exact (pairwise_cons.mp hpair).1 k mem_cons_self
      have hplace : placeInJob ds j u < placeInJob ds j k := by
        rw [placeInJob, placeInJob, hgem, Option.getD_some]
        have hu₁ : u ∉ l₁ := fun hmem =>
          (nodup_append.mp hnd).2.2 u hmem u mem_cons_self rfl
        have hk₁ : k ∉ l₁ := fun hmem =>
          (nodup_append.mp hnd).2.2 k hmem k (by simp) rfl
        have hne : u ≠ k := fun heq => by
          have := (nodup_cons.mp (nodup_append.mp hnd).2.1).1
          simp [heq] at this
        rw [idxOf_append_of_notMem hu₁, idxOf_append_of_notMem hk₁,
          idxOf_cons_self, idxOf_cons_ne _ hne, idxOf_cons_self]
        omega
      simp only [rank, hdu, hdk, Option.elim_some, hju, hjk]
      refine Prod.Lex.toLex_lt_toLex.mpr (Or.inr ⟨rfl, ?_⟩)
      rcases hle.lt_or_eq with hlt | heq
      · exact Prod.Lex.toLex_lt_toLex.mpr (Or.inl hlt)
      · exact Prod.Lex.toLex_lt_toLex.mpr (Or.inr ⟨heq, hplace⟩)
    | across hlt hprev hgem =>
      obtain ⟨du, hdu, -, hju⟩ := (mem_gemByJob hprev).mp (by simp : u ∈ _)
      obtain ⟨dk, hdk, -, hjk⟩ := (mem_gemByJob hgem).mp (by simp : k ∈ _)
      simp only [rank, hdu, hdk, Option.elim_some, hju, hjk]
      exact Prod.Lex.toLex_lt_toLex.mpr (Or.inl hlt)

end ModelBlaster.Regroup

/-! ## Regrouping is sound -/

namespace ModelBlaster.Regroup

open List PyDict

variable {ρ : Type} {ds : Dispatches ρ}

/-! ### The layout -/

/-- Every op of a feasible fixture is laid out. -/
theorem Feasible.perm_layoutOrder (h : Feasible ds) : (layoutOrder ds).Perm ds.keys :=
  (KahnLoop.perm_sort_iff _ ds.keys_nodup fun k _ => h.augDeps_subset k).mpr
    (h.acyclic_augDeps ds.keys)

theorem topological_layoutOrder (ds : Dispatches ρ) :
    KahnLoop.Topological (depsOf (augDeps ds)) ds.keys (layoutOrder ds) :=
  KahnLoop.topological_sort _ _ ds.keys_nodup

variable {d : Dispatch ρ} {k : String} {fx : Fixture ρ}

theorem jobs_duration (h : ds.get? k = some d) :
    (jobs ds).duration k = d.duration := by
  simp [jobs, h]

theorem jobs_tile (h : ds.get? k = some d) :
    (jobs ds).tile k = d.hardwareTarget := by
  simp [jobs, h]

/-- A schedule of the layout order. -/
abbrev Laid (ds : Dispatches ρ) (S : String → ℚ) : Prop :=
  ListSchedule.Schedule (jobs ds) (fun _ => 0) (layoutOrder ds) S

variable {S : String → ℚ}

theorem Feasible.mem_layoutOrder (h : Feasible ds) (hget : ds.get? k = some d) :
    k ∈ layoutOrder ds :=
  h.perm_layoutOrder.mem_iff.mpr (mem_keys_of_get? hget)

/-- Every op ends after it starts. -/
theorem Feasible.start_lt_stop (h : Feasible ds) (S : String → ℚ) (hget : ds.get? k = some d) :
    S k < (jobs ds).stop S k := by
  rw [ListSchedule.Jobs.stop, jobs_duration hget]
  exact lt_add_of_pos_right _ (h.duration_pos _ (mem_items_iff.mpr hget))

theorem Feasible.start_le_stop (h : Feasible ds) (S : String → ℚ) :
    ∀ k ∈ layoutOrder ds, S k ≤ (jobs ds).stop S k := by
  intro k hk
  obtain ⟨d, hget⟩ := mem_keys_iff.mp (h.perm_layoutOrder.subset hk)
  exact (h.start_lt_stop S hget).le

/-! ### Bursts -/

/-- The gemmini ops of a job run one after the other, in the order of the job. -/
theorem Feasible.pairwise_burst (h : Feasible ds) (hS : Laid ds S) {j : String}
    {names : List String} (hgem : (gemByJob ds).get? j = some names) :
    names.Pairwise fun a b => (jobs ds).stop S a ≤ S b := by
  have hops : ∀ n ∈ names, n ∈ layoutOrder ds := fun n hn => by
    obtain ⟨d, hget, -⟩ := (mem_gemByJob hgem).mp hn
    exact h.mem_layoutOrder hget
  -- carrying the length of the later op along makes the relation transitive
  have htrans : IsTrans String fun a b =>
      (jobs ds).stop S a ≤ S b ∧ S b ≤ (jobs ds).stop S b :=
    ⟨fun a b c hab hbc => ⟨(hab.1.trans hab.2).trans hbc.1, hbc.2⟩⟩
  have hchain : names.IsChain fun a b => (jobs ds).stop S a ≤ S b ∧ S b ≤ (jobs ds).stop S b := by
    rw [isChain_iff_forall_rel_of_append_cons_cons]
    intro a b l₁ l₂ heq
    have hb : b ∈ layoutOrder ds := hops b (by simp [heq])
    have hdep : a ∈ (jobs ds).deps b := mem_augDeps_iff.mpr (Or.inr (.chain (heq ▸ hgem)))
    exact ⟨hS.end_dep_le hb hdep, h.start_le_stop S b hb⟩
  exact (isChain_iff_pairwise.mp hchain).imp And.left

/-- The gemmini ops of a job end before those of a later job start. -/
theorem Feasible.burst (h : Feasible ds) (hS : Laid ds S) {a b : String} {da db : Dispatch ρ}
    (ha : ds.get? a = some da) (hb : ds.get? b = some db) (hga : da.onGemmini = true)
    (hgb : db.onGemmini = true) (hlt : da.jobName < db.jobName) :
    (jobs ds).stop S a ≤ S b := by
  obtain ⟨names, hnames, hmema⟩ := exists_gemByJob ha hga
  obtain ⟨names', hnames', hmemb⟩ := exists_gemByJob hb hgb
  have hpair := h.pairwise_burst hS hnames
  have hpair' := h.pairwise_burst hS hnames'
  rcases eq_nil_or_concat' names with rfl | ⟨init, last, rfl⟩
  · exact absurd hmema not_mem_nil
  cases names' with
  | nil => exact absurd hmemb not_mem_nil
  | cons first rest =>
    have hopLast : ∀ n ∈ init ++ [last], n ∈ layoutOrder ds := fun n hn => by
      obtain ⟨d, hget, -⟩ := (mem_gemByJob hnames).mp hn
      exact h.mem_layoutOrder hget
    have hopFirst : ∀ n ∈ first :: rest, n ∈ layoutOrder ds := fun n hn => by
      obtain ⟨d, hget, -⟩ := (mem_gemByJob hnames').mp hn
      exact h.mem_layoutOrder hget
    have hleft : (jobs ds).stop S a ≤ (jobs ds).stop S last := by
      rcases mem_append.mp hmema with hmem | hmem
      · have hend := (pairwise_append.mp hpair).2.2 a hmem last (by simp)
        exact hend.trans (h.start_le_stop S last (hopLast last (by simp)))
      · rw [mem_singleton.mp hmem]
    have hright : S first ≤ S b := by
      rcases mem_cons.mp hmemb with rfl | hmem
      · exact le_rfl
      · have hend := (pairwise_cons.mp hpair').1 b hmem
        exact (h.start_le_stop S first (hopFirst first (by simp))).trans hend
    have hdep : last ∈ (jobs ds).deps first :=
      mem_augDeps_iff.mpr (Or.inr (.across hlt hnames hnames'))
    calc (jobs ds).stop S a ≤ (jobs ds).stop S last := hleft
      _ ≤ S first := hS.end_dep_le (hopFirst first (by simp)) hdep
      _ ≤ S b := hright

/-! ### The new fixture -/

/-- The ops with other starts. -/
def restart (ds : Dispatches ρ) (S : String → ℚ) : Dispatches ρ :=
  ds.mapItems fun k d => { d with startTime := S k }

/-- What holds of the fixture `ds'` that regrouping makes of `ds`. -/
structure Regrouped (ds ds' : Dispatches ρ) : Prop where
  /-- Only the starts change. -/
  only_start : ∃ S, ds' = restart ds S
  /-- Every op starts no earlier than its dependencies end. -/
  dep_end_le : ∀ k d, ds'.get? k = some d → ∀ dep ∈ d.dependencies,
    ∃ e, ds'.get? dep = some e ∧ e.stop ≤ d.startTime
  /-- The ops of a tile do not overlap. -/
  disjoint : ∀ a b da db, ds'.get? a = some da → ds'.get? b = some db → a ≠ b →
    da.hardwareTarget = db.hardwareTarget → da.stop ≤ db.startTime ∨ db.stop ≤ da.startTime
  /-- The gemmini ops of a job end before those of a later job start. -/
  burst : ∀ a b da db, ds'.get? a = some da → ds'.get? b = some db → da.onGemmini = true →
    db.onGemmini = true → da.jobName < db.jobName → da.stop ≤ db.startTime
  /-- In some order of the ops, each after its augmented dependencies, every op starts at the
  earliest time at which these and the ops before it on its tile have ended. -/
  earliest : ∃ order, order.Perm ds.keys ∧
    KahnLoop.Topological (depsOf (augDeps ds)) ds.keys order ∧
    ∀ l₁ k l₂ d, order = l₁ ++ k :: l₂ → ds'.get? k = some d →
      IsLeast {t | 0 ≤ t ∧
        (∀ u ∈ depsOf (augDeps ds) k, ∀ e, ds'.get? u = some e → e.stop ≤ t) ∧
        ∀ a ∈ l₁, ∀ e, ds'.get? a = some e → e.hardwareTarget = d.hardwareTarget → e.stop ≤ t}
        d.startTime

theorem get?_restart_of_get? (h : ds.get? k = some d) :
    (restart ds S).get? k = some { d with startTime := S k } := by
  rw [restart, get?_mapItems, h]
  rfl

/-- The op that a schedule makes of one of the fixture. -/
theorem get?_restart {d' : Dispatch ρ} (h : (restart ds S).get? k = some d') :
    ∃ d, ds.get? k = some d ∧ d' = { d with startTime := S k } ∧
      d'.stop = (jobs ds).stop S k := by
  rw [restart, get?_mapItems] at h
  obtain ⟨d, hget, rfl⟩ := Option.map_eq_some_iff.mp h
  exact ⟨d, hget, rfl, by rw [ListSchedule.Jobs.stop, jobs_duration hget]; rfl⟩

/-- A schedule of the layout order regroups the fixture. -/
theorem Feasible.regrouped (h : Feasible ds) (hS : Laid ds S) : Regrouped ds (restart ds S) where
  only_start := ⟨S, rfl⟩
  dep_end_le := by
    intro k d' hd' dep hdep
    obtain ⟨d, hget, rfl, -⟩ := get?_restart hd'
    have hmem : dep ∈ (jobs ds).deps k := mem_augDeps_iff.mpr (Or.inl ⟨d, hget, hdep⟩)
    obtain ⟨e, he⟩ := mem_keys_iff.mp (h.augDeps_subset k hmem)
    refine ⟨{ e with startTime := S dep }, get?_restart_of_get? he, ?_⟩
    have hend := hS.end_dep_le (h.mem_layoutOrder hget) hmem
    rwa [ListSchedule.Jobs.stop, jobs_duration he] at hend
  disjoint := by
    intro a b da' db' ha hb hab htile
    obtain ⟨da, hgeta, rfl, hstopa⟩ := get?_restart ha
    obtain ⟨db, hgetb, rfl, hstopb⟩ := get?_restart hb
    rw [hstopa, hstopb]
    refine hS.disjoint (h.start_le_stop S) (h.mem_layoutOrder hgeta) (h.mem_layoutOrder hgetb) hab
      ?_
    rw [jobs_tile hgeta, jobs_tile hgetb]
    exact htile
  burst := by
    intro a b da' db' ha hb hga hgb hlt
    obtain ⟨da, hgeta, rfl, hstopa⟩ := get?_restart ha
    obtain ⟨db, hgetb, rfl, -⟩ := get?_restart hb
    rw [hstopa]
    exact h.burst hS hgeta hgetb hga hgb hlt
  earliest := by
    refine ⟨layoutOrder ds, h.perm_layoutOrder, topological_layoutOrder ds, ?_⟩
    intro l₁ k l₂ d' horder hd'
    obtain ⟨d, hget, rfl, -⟩ := get?_restart hd'
    have hk : k ∈ layoutOrder ds := h.mem_layoutOrder hget
    constructor
    · refine ⟨hS.free_le (h.start_le_stop S) hk, fun u hu e' he' => ?_, fun a ha e' he' htile => ?_⟩
      · obtain ⟨e, -, -, hstop⟩ := get?_restart he'
        rw [hstop]
        exact hS.end_dep_le hk hu
      · obtain ⟨e, hgete, rfl, hstop⟩ := get?_restart he'
        rw [hstop]
        refine hS.end_le_start (h.start_le_stop S) horder ha ?_
        rw [jobs_tile hgete, jobs_tile hget]
        exact htile
    · rintro t ⟨hzero, hdeps, htile⟩
      refine hS.start_le horder (ListSchedule.latest_le hzero ?_) hzero fun a ha hsame => ?_
      · intro e he
        obtain ⟨u, hu, rfl⟩ := mem_map.mp he
        obtain ⟨e', he'⟩ := mem_keys_iff.mp (h.augDeps_subset k hu)
        have hstop := hdeps u hu { e' with startTime := S u } (get?_restart_of_get? he')
        rwa [ListSchedule.Jobs.stop, jobs_duration he']
      · have hmem : a ∈ ds.keys := h.perm_layoutOrder.subset (by simp [horder, ha])
        obtain ⟨e', he'⟩ := mem_keys_iff.mp hmem
        rw [jobs_tile he', jobs_tile hget] at hsame
        have hstop := htile a ha { e' with startTime := S a } (get?_restart_of_get? he') hsame
        rwa [ListSchedule.Jobs.stop, jobs_duration he']

/-- The run on a feasible fixture. -/
theorem Feasible.exists_regroup (h : Feasible fx.dispatches) (path : String) :
    ∃ S prov report, Laid fx.dispatches S ∧ regroup fx path = .ok ({ fx with
        provenance := some prov
        dispatches := restart fx.dispatches S }, report) ∧
      report.depViolations = violations (restart fx.dispatches S) ∧
      report.tileOverlaps = overlaps (restart fx.dispatches S) := by
  obtain ⟨board, S, hrun, hplaced⟩ := @ListSchedule.exists_run _ _ _ _ _ (jobs fx.dispatches) _ _
    (fun _ => 0) _ _ _ (topological_layoutOrder fx.dispatches)
  have hlen : (layoutOrder fx.dispatches).length = fx.dispatches.items.length := by
    rw [h.perm_layoutOrder.length_eq, PyDict.keys, length_map]
  -- every op has a start
  have hnew : (fx.dispatches.mapItems fun name d =>
      { d with startTime := (board.starts.get? name).getD d.startTime }) =
      restart fx.dispatches S := by
    refine PyDict.ext (map_congr_left fun item hitem => ?_)
    have hstart := hplaced.start item.1 (h.mem_layoutOrder (mem_items_iff.mp hitem))
    simp only [hstart, Option.getD_some]
  rw [regroup, if_neg (not_not.mpr hlen), hrun]
  simp only [hnew]
  exact ⟨S, _, _, hplaced.schedule, rfl, rfl, rfl⟩

/-- A feasible fixture is regrouped: nothing is raised, and besides the starts and the provenance
nothing changes. -/
theorem regroup_sound (fx : Fixture ρ) (path : String) (h : Feasible fx.dispatches) :
    ∃ ds' prov report, regroup fx path =
        .ok ({ fx with provenance := some prov, dispatches := ds' }, report) ∧
      Regrouped fx.dispatches ds' := by
  obtain ⟨S, prov, report, hS, hrun, -⟩ := h.exists_regroup path
  exact ⟨_, prov, report, hrun, h.regrouped hS⟩

/-- Two networks of which each has a gemmini op and a vector op. -/
def twoNetworks : Fixture Unit where
  provenance := none
  dispatches := PyDict.ofList [
    ("a_0", ⟨some 0, "a", "CPU_P#0", 0, 2, [], ()⟩),
    ("b_0", ⟨some 0, "b", "CPU_P#0", 2, 1, [], ()⟩),
    ("a_1", ⟨some 1, "a", "CPU_P#0", 3, 1, ["a_0"], ()⟩),
    ("b_1", ⟨some 1, "b", "CPU_E#0", 3, 2, ["b_0"], ()⟩)]
  rest := ()

theorem feasible_twoNetworks : Feasible twoNetworks.dispatches where
  duration_pos := by decide +kernel
  dep_end_le := by decide +kernel

theorem regroup_sound_twoNetworks : ∃ ds' prov report, regroup twoNetworks "in.json" =
      .ok ({ twoNetworks with provenance := some prov, dispatches := ds' }, report) ∧
    Regrouped twoNetworks.dispatches ds' :=
  regroup_sound twoNetworks "in.json" feasible_twoNetworks

/-! ### The report -/

variable {ds' : Dispatches ρ}

/-- The script counts no dependency that ends too late. -/
theorem Regrouped.violations_eq_zero (h : Regrouped ds ds') : violations ds' = 0 := by
  refine sum_eq_zero fun n hn => ?_
  obtain ⟨⟨k, d⟩, hitem, rfl⟩ := mem_map.mp hn
  rw [countP_eq_zero]
  intro dep hdep
  obtain ⟨e, he, hstop⟩ := h.dep_end_le k d (mem_items_iff.mp hitem) dep hdep
  simp only [he, Option.any_some, before, decide_eq_true_eq, not_lt]
  exact hstop.trans (by norm_num)

/-- The script counts no ops of one tile that overlap. -/
theorem Regrouped.overlaps_eq_zero (h : Regrouped ds ds')
    (hdur : ∀ item ∈ ds'.items, 0 < item.2.duration) : overlaps ds' = 0 := by
  refine sum_eq_zero fun n hn => ?_
  obtain ⟨⟨tile, group⟩, hgroup, rfl⟩ := mem_map.mp hn
  have hlist := get?_group (mem_items_iff.mp hgroup)
  -- of two intervals of the tile, in any order of the list, one ends before the other begins
  have hdisj : group.Pairwise fun a b : ℚ ×ₗ ℚ =>
      (ofLex a).2 ≤ (ofLex b).1 ∨ (ofLex b).2 ≤ (ofLex a).1 := by
    rw [hlist, pairwise_map]
    have hnd : (ds'.items.filter fun item => item.2.hardwareTarget = tile).Pairwise
        fun a b => a.1 ≠ b.1 :=
      (pairwise_map.mp ds'.nodup).sublist filter_sublist
    refine hnd.imp_of_mem fun {a b} ha hb hne => ?_
    simp only [mem_filter, decide_eq_true_eq] at ha hb
    exact h.disjoint a.1 b.1 a.2 b.2 (mem_items_iff.mp ha.1)
      (mem_items_iff.mp hb.1) hne (ha.2.trans hb.2.symm)
  have hpos : ∀ a ∈ group, (ofLex a).1 < (ofLex a).2 := by
    intro a ha
    rw [hlist] at ha
    obtain ⟨item, hitem, rfl⟩ := mem_map.mp ha
    exact lt_add_of_pos_right _ (hdur item (mem_of_mem_filter hitem))
  have hperm := perm_insertionSort (· ≤ ·) group
  have hsorted : (group.insertionSort (· ≤ ·)).Pairwise (· ≤ ·) := pairwise_insertionSort _ _
  have hdisj' := (hperm.pairwise_iff (fun h => h.symm)).mpr hdisj
  have hpos' : ∀ a ∈ group.insertionSort (· ≤ ·), (ofLex a).1 < (ofLex a).2 :=
    fun a ha => hpos a (hperm.subset ha)
  have hpair : (group.insertionSort (· ≤ ·)).Pairwise fun a b : ℚ ×ₗ ℚ =>
      ¬(ofLex b).1 + 1 / 1000000 < (ofLex a).2 := by
    refine (hsorted.and hdisj').imp_of_mem fun {a b} ha hb hab => ?_
    have hfst : (ofLex a).1 ≤ (ofLex b).1 := Prod.Lex.monotone_fst _ _ hab.1
    have hposb := hpos' b hb
    -- in the order of the starts the second cannot end before the first begins
    rcases hab.2 with hend | hend
    · linarith
    · linarith
  generalize group.insertionSort (· ≤ ·) = l at hpair
  rw [countP_eq_zero]
  intro p hp
  have hnext : ¬(ofLex p.2).1 + 1 / 1000000 < (ofLex p.1).2 := by
    cases l with
    | nil => exact absurd hp not_mem_nil
    | cons a l =>
      obtain ⟨i, hi, rfl⟩ := mem_iff_getElem.mp hp
      rw [getElem_zip]
      simp only [tail_cons, length_zip, length_cons] at hi ⊢
      exact pairwise_iff_getElem.mp hpair i (i + 1) (by simp; omega) (by simp; omega)
        (Nat.lt_succ_self i)
  simpa [before] using hnext

end ModelBlaster.Regroup

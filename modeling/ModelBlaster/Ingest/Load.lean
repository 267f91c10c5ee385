import ModelBlaster.Ingest.Completion

/-!
# Schedule ingest

From a schedule document to the dispatch table: complete the schedule, order its keys,
resolve every reference to a position in the table and collect for every entry the entries
that wait for it.

## Main definitions

* `completedTable`: the schedule after the checks on the document and the completion pass;
* `buildEntry`: one entry of the table;
* `withFanout`: the waiting entries of every entry;
* `load`: the whole ingest;
* `WellFormed`: the invariants of a dispatch table;
* `jobIr`: the network of a job;
* `synthesizedKeys`: the keys that the pass writes;
* `Linearises`: the table is a greedy linearisation of a schedule.

## Main results

* `load_eq_ok_iff`: when the ingest returns, and what;
* `wellFormed_of_load`: the table it returns is well formed;
* `mem_keys_complete`: the keys after the pass;
* `kept_complete`, `mem_keys_of_complete`, `mem_dependencies_of_complete`: on a named schedule
  the pass keeps every entry, every dispatch of a scheduled network is present afterwards, and
  every edge at a missing dispatch is a dependency;
* `load_linearises`: the table that the ingest returns linearises the completed schedule.
-/

namespace ModelBlaster

variable {τ : Type} [LinearOrder τ] [Zero τ] [Add τ]

/-- The guard on the profile files: a mismatch is an error in strict mode only, and a hash that
cannot be computed is not a mismatch. -/
def pdbCheck (env : Env) (doc : Doc τ) : Except IngestError Unit :=
  match truthy doc.pdbHash with
  | none => .ok ()
  | some fixture =>
    if doc.pdbFiles = [] then .ok ()
    else
      match env.currentPdbHash doc.pdbFiles with
      | none => .ok ()
      | some current =>
        if current ≠ fixture ∧ env.strictPdbCheck = true then .error .pdbHashMismatch else .ok ()

/-- The dispatches of the document. -/
def rawTable (doc : Doc τ) : Except IngestError (RawTable τ) :=
  match doc.dispatches with
  | none => .error .missingDispatches
  | some raw => if raw.items = [] then .error .missingDispatches else .ok raw

/-- The completion pass, unless it is switched off. -/
def completion (env : Env) (raw : RawTable τ) (irs : PyDict String Ir) :
    Except IngestError (RawTable τ) :=
  if env.skipIrCompletion then .ok raw else complete raw irs

/-- The schedule that is sorted: read, guarded and completed. -/
def completedTable (env : Env) (doc : Doc τ) (irs : PyDict String Ir) :
    Except IngestError (RawTable τ) := do
  let raw ← rawTable doc
  pdbCheck env doc
  completion env raw irs

/-- The table order, once it places every entry. -/
def orderKeys (raw : RawTable τ) : Except IngestError (List String) :=
  let sorted := sortedKeys raw
  if sorted.length ≠ raw.keys.length then
    .error (.dependencyCycle raw.keys.length sorted.length (raw.keys.filter (· ∉ sorted)))
  else .ok sorted

/-- The position of a producer, which has to be a smaller one. -/
def resolveDep (sorted : List String) (entryId : ℕ) (key dep : String) : Except IngestError ℕ :=
  if dep ∉ sorted then .error (.unknownDep key dep)
  else if entryId ≤ sorted.idxOf dep then
    .error (.forwardDep key entryId dep (sorted.idxOf dep))
  else .ok (sorted.idxOf dep)

/-- The position of the cross-job predecessor, which has to be a smaller one; `-1` when the
entry names none. -/
def resolveTimeDep (sorted : List String) (entryId : ℕ) (key : String)
    (timeDependency : Option String) : Except IngestError ℤ :=
  match truthy timeDependency with
  | none => .ok (-1)
  | some dep =>
    if dep ∉ sorted then .error (.unknownTimeDep key dep)
    else if entryId ≤ sorted.idxOf dep then
      .error (.forwardTimeDep key entryId dep (sorted.idxOf dep))
    else .ok (sorted.idxOf dep)

/-- The network of an entry, its instance number and graph. -/
def resolveNetwork (irs : PyDict String Ir) (key job : String) :
    Except IngestError (String × ℤ × Ir) := do
  let (network, instanceNo) ← splitJobName job irs.keys
  match irs.get? network with
  | some ir => .ok (network, instanceNo, ir)
  | none => .error (.unknownNetwork key network (irs.keys.insertionSort (· ≤ ·)))

/-- The op and the table row behind a dispatch id. -/
def resolveDispatch (key network : String) (ir : Ir) (did : ℤ) : Except IngestError (Op × ℤ) :=
  match (indexIr ir).opByDid.get? did, (indexIr ir).remap.get? did with
  | some op, some row => .ok (op, row)
  | _, _ => .error (.unknownDispatchId key did network)

/-- The hardware target of an entry. -/
def resolveHardware (key : String) (hardwareTarget : Option String) (kinds : SlotKinds)
    (reg : CoreRegistry) : Except IngestError Resolved :=
  match hardwareTarget with
  | none => .error (.missingTarget key)
  | some target => resolveTargets target kinds reg

/-- `tuple(sorted(set(ids)))` -/
def sortedSet (ids : List ℕ) : List ℕ := ids.dedup.insertionSort (· ≤ ·)

/-- One entry of the table. -/
def buildEntry (raw : RawTable τ) (irs : PyDict String Ir) (reg : CoreRegistry)
    (kinds : SlotKinds) (sorted : List String) (entryId : ℕ) (key : String) :
    Except IngestError (XpurtEntry τ) :=
  match raw.get? key with
  | none => .error (.unknownDep key key)
  | some d => do
    let (network, instanceNo, ir) ← resolveNetwork irs key d.jobName
    let (op, row) ← resolveDispatch key network ir d.id
    let target ← resolveHardware key d.hardwareTarget kinds reg
    let deps ← d.dependencies.mapM (resolveDep sorted entryId key)
    let timeDep ← resolveTimeDep sorted entryId key d.timeDependency
    return {
      entryId := entryId
      scheduleKey := key
      jobName := d.jobName
      network := network
      instanceNo := instanceNo
      dispatchId := row
      op := op.op
      name := op.name.getD ("dispatch_" ++ toString d.id)
      coreName := target.coreName
      coreKind := target.coreKind
      impl := (truthy d.impl).getD target.coreKind
      hart := target.hart
      harts := target.harts
      startTime := d.start
      duration := d.length
      depsEntryIds := sortedSet deps
      timeDepEntryId := timeDep }

/-- The positions that wait for position `p`: once for every data dependency and once for the
time dependency. -/
def fanoutOf (entries : List (XpurtEntry τ)) (p : ℕ) : List ℕ :=
  entries.flatMap fun c =>
    ((c.depsEntryIds.filter (· = p)).map fun _ => c.entryId) ++
      (if c.timeDepEntryId = (p : ℤ) then [c.entryId] else [])

/-- Collect the waiting entries of every entry. -/
def withFanout (entries : List (XpurtEntry τ)) : List (XpurtEntry τ) :=
  entries.map fun e => { e with fanoutEntryIds := sortedSet (fanoutOf entries e.entryId) }

/-- The entries of the table, without their waiting entries. -/
def buildEntries (raw : RawTable τ) (irs : PyDict String Ir) (reg : CoreRegistry)
    (kinds : SlotKinds) (sorted : List String) : Except IngestError (List (XpurtEntry τ)) :=
  sorted.zipIdx.mapM fun item => buildEntry raw irs reg kinds sorted item.2 item.1

/-- The ingest: parse, validate and order a schedule. -/
def load (env : Env) (doc : Doc τ) (irs : PyDict String Ir) (reg : CoreRegistry)
    (kinds : SlotKinds) : Except IngestError (List (XpurtEntry τ)) := do
  let raw ← completedTable env doc irs
  let sorted ← orderKeys raw
  let entries ← buildEntries raw irs reg kinds sorted
  return withFanout entries

/-! ### A small workload -/

/-- A network of two ops in a row, the second an activation. -/
def pairIr : Ir :=
  ⟨[{ op := "linear_s8", dispatchId := some 0 },
    { op := "relu_s8", dispatchId := some 1, dependsOn := [0] }]⟩

/-- The network under its name. -/
def pairIrs : PyDict String Ir := ⟨[("mlp", pairIr)], by decide⟩

/-- One vector core and one scalar core. -/
def pairRegistry : CoreRegistry := ⟨"pair", [⟨"rvv0", "rvv", [1]⟩, ⟨"rocket0", "scalar", [0]⟩]⟩

/-- A schedule of one job of the network without the activation. -/
def headRaw : RawTable ℕ where
  items :=
    [("mlp_dispatch_0", { id := 0, hardwareTarget := some "CPU_P#0", duration := some 5
                          jobName := "mlp" })]
  nodup := by decide

/-- The table of that schedule. -/
def headTable : List (XpurtEntry ℕ) :=
  [{ entryId := 0, scheduleKey := "mlp_dispatch_0", jobName := "mlp", network := "mlp"
     instanceNo := 0, dispatchId := 0, op := "linear_s8", name := "dispatch_0"
     coreName := "rvv0", coreKind := "rvv", impl := "rvv", hart := 1, harts := [1]
     startTime := 0, duration := 5, depsEntryIds := [], timeDepEntryId := -1
     fanoutEntryIds := [1] },
   { entryId := 1, scheduleKey := "mlp_dispatch_1", jobName := "mlp", network := "mlp"
     instanceNo := 0, dispatchId := 1, op := "relu_s8", name := "dispatch_1"
     coreName := "rocket0", coreKind := "scalar", impl := "scalar", hart := 0, harts := [0]
     startTime := 5, duration := 0, depsEntryIds := [0], timeDepEntryId := -1
     fanoutEntryIds := [] }]

example : load {} ⟨some headRaw, none, []⟩ pairIrs pairRegistry {} = .ok headTable := by
  decide

end ModelBlaster

/-! ## The dispatch table -/

namespace ModelBlaster

open List Fallible

variable {τ : Type}

/-! ### Sorted sets of positions -/

variable {ids : List ℕ} {i entryId p : ℕ} {T : List (XpurtEntry τ)} {e : XpurtEntry τ}
  {key network : String} {sorted : List String} {ir : Ir}

/-- Sorting a set keeps its members. -/
@[simp]
theorem mem_sortedSet : i ∈ sortedSet ids ↔ i ∈ ids := by
  simp [sortedSet]

/-- A sorted set has no repetition. -/
theorem nodup_sortedSet (ids : List ℕ) : (sortedSet ids).Nodup :=
  (perm_insertionSort _ _).nodup_iff.mpr (nodup_dedup ids)

/-! ### Invariants of a table -/

/-- The invariants of a dispatch table: positions, strictly backward references without
repetition, waiting entries as the converse of both kinds of references, and the owning hart
first among distinct reserved harts. -/
structure WellFormed (T : List (XpurtEntry τ)) : Prop where
  /-- An entry knows its position. -/
  entryId_eq : ∀ (i : ℕ) (hi : i < T.length), T[i].entryId = i
  /-- Data dependencies point strictly backward. -/
  deps_lt : ∀ e ∈ T, ∀ d ∈ e.depsEntryIds, d < e.entryId
  /-- No data dependency is listed twice. -/
  deps_nodup : ∀ e ∈ T, e.depsEntryIds.Nodup
  /-- The time dependency, if there is one, points strictly backward. -/
  timeDep_lt : ∀ e ∈ T, e.timeDepEntryId = -1 ∨ ∃ p : ℕ, e.timeDepEntryId = p ∧ p < e.entryId
  /-- The waiting entries are those that refer to the entry. -/
  mem_fanout : ∀ e ∈ T, ∀ j : ℕ, j ∈ e.fanoutEntryIds ↔
    ∃ c ∈ T, c.entryId = j ∧ (e.entryId ∈ c.depsEntryIds ∨ c.timeDepEntryId = e.entryId)
  /-- No waiting entry is listed twice. -/
  fanout_nodup : ∀ e ∈ T, e.fanoutEntryIds.Nodup
  /-- The owning hart is the first reserved one. -/
  harts_head : ∀ e ∈ T, e.harts.head? = some e.hart
  /-- No hart is reserved twice. -/
  harts_nodup : ∀ e ∈ T, e.harts.Nodup
  /-- An unbound hart is reserved alone. -/
  harts_bound : ∀ e ∈ T, 1 < e.harts.length → ∀ h ∈ e.harts, 0 ≤ h

/-- The entry at a position knows that position. -/
theorem WellFormed.entryId_get (h : WellFormed T) (he : T[i]? = some e) : e.entryId = i := by
  obtain ⟨hi, rfl⟩ := List.getElem?_eq_some_iff.mp he
  exact h.entryId_eq i hi

/-- An entry stands at its position. -/
theorem WellFormed.get_entryId (h : WellFormed T) (he : e ∈ T) : T[e.entryId]? = some e := by
  obtain ⟨i, hi, rfl⟩ := mem_iff_getElem.mp he
  rw [h.entryId_eq i hi]
  exact getElem?_eq_getElem hi

/-! ### References -/

variable {irs : PyDict String Ir} {reg : CoreRegistry} {kinds : SlotKinds}

/-- A dependency resolves iff it is placed at a smaller position. -/
theorem resolveDep_eq_ok_iff {dep : String} :
    resolveDep sorted entryId key dep = .ok p ↔
      dep ∈ sorted ∧ sorted.idxOf dep < entryId ∧ p = sorted.idxOf dep := by
  rw [resolveDep, ite_error_eq_ok_iff, ite_error_eq_ok_iff, not_not, not_le,
    Except.ok.injEq, eq_comm (a := p)]

private theorem eq_map_idxOf_of_forall₂ {deps : List String}
    (h : List.Forall₂
      (fun dep p => dep ∈ sorted ∧ sorted.idxOf dep < entryId ∧ p = sorted.idxOf dep) deps ids) :
    ids = deps.map sorted.idxOf := by
  induction h with
  | nil => rfl
  | cons hhead _ ih => rw [ih, hhead.2.2, map_cons]

/-- A time dependency resolves iff it is absent or placed at a smaller position. -/
theorem resolveTimeDep_eq_ok_iff {timeDependency : Option String} {p : ℤ} :
    resolveTimeDep sorted entryId key timeDependency = .ok p ↔
      (truthy timeDependency = none ∧ p = -1) ∨
        ∃ dep, truthy timeDependency = some dep ∧ dep ∈ sorted ∧
          sorted.idxOf dep < entryId ∧ p = sorted.idxOf dep := by
  unfold resolveTimeDep
  cases htd : truthy timeDependency with
  | none => simp [eq_comm]
  | some dep =>
    simp only [ite_error_eq_ok_iff, not_not, not_le, Except.ok.injEq, reduceCtorEq,
      false_and, Option.some.injEq, exists_eq_left', false_or, eq_comm (a := p)]

/-- A network resolves iff the job splits to a known one. -/
theorem resolveNetwork_eq_ok_iff {job : String} {instanceNo : ℤ} :
    resolveNetwork irs key job = .ok (network, instanceNo, ir) ↔
      splitJobName job irs.keys = .ok (network, instanceNo) ∧ irs.get? network = some ir := by
  rw [resolveNetwork, bind_eq_ok_iff]
  constructor
  · rintro ⟨⟨net, inst⟩, hsplit, hget⟩
    cases hir : irs.get? net with
    | none =>
      simp only [hir] at hget
      cases hget
    | some ir' =>
      simp only [hir] at hget
      cases hget
      exact ⟨hsplit, hir⟩
  · rintro ⟨hsplit, hget⟩
    exact ⟨(network, instanceNo), hsplit, by simp [hget]⟩

/-- A dispatch id resolves iff the network's index has it. -/
theorem resolveDispatch_eq_ok_iff {did row : ℤ} {op : Op} :
    resolveDispatch key network ir did = .ok (op, row) ↔
      (indexIr ir).opByDid.get? did = some op ∧ (indexIr ir).remap.get? did = some row := by
  unfold resolveDispatch
  split
  next op' row' hop hrow => simp [hop, hrow]
  next hnone =>
    simp only [reduceCtorEq, false_iff, not_and]
    exact fun hop hrow => hnone op row hop hrow

/-- A position waits for `p` iff its entry refers to `p`. -/
theorem mem_fanoutOf {j : ℕ} :
    j ∈ fanoutOf T p ↔
      ∃ c ∈ T, c.entryId = j ∧ (p ∈ c.depsEntryIds ∨ c.timeDepEntryId = p) := by
  simp only [fanoutOf, mem_flatMap, mem_append, mem_map, mem_filter, decide_eq_true_eq]
  constructor
  · rintro ⟨c, hc, ⟨d, ⟨hd, rfl⟩, rfl⟩ | htime⟩
    · exact ⟨c, hc, rfl, Or.inl hd⟩
    · split_ifs at htime with heq
      · rw [mem_singleton] at htime
        exact ⟨c, hc, htime.symm, Or.inr heq⟩
      · cases htime
  · rintro ⟨c, hc, rfl, hdep | htime⟩
    · exact ⟨c, hc, Or.inl ⟨p, ⟨hdep, rfl⟩, rfl⟩⟩
    · exact ⟨c, hc, Or.inr (by simp [htime])⟩

/-! ### Entries -/

section Entries

variable [Zero τ] {raw : RawTable τ} {sorted : List String}

/-- A traversal of the table order builds the entry of every position. -/
theorem buildEntries_eq_ok_iff {entries : List (XpurtEntry τ)} :
    buildEntries raw irs reg kinds sorted = .ok entries ↔
      entries.length = sorted.length ∧
        ∀ (i : ℕ) (hi : i < sorted.length) (hi' : i < entries.length),
          buildEntry raw irs reg kinds sorted i sorted[i] = .ok entries[i] := by
  rw [buildEntries, mapM_eq_ok_iff, forall₂_iff_get]
  simp only [length_zipIdx, get_eq_getElem, getElem_zipIdx, Nat.zero_add]
  constructor
  · rintro ⟨hlen, hget⟩
    exact ⟨hlen.symm, fun i hi hi' => hget i hi hi'⟩
  · rintro ⟨hlen, hget⟩
    exact ⟨hlen.symm, fun i hi hi' => hget i hi hi'⟩

/-- What an entry of the table is built from. -/
structure BuiltFrom (raw : RawTable τ) (irs : PyDict String Ir) (reg : CoreRegistry)
    (kinds : SlotKinds) (sorted : List String) (entryId : ℕ) (key : String)
    (d : RawEntry τ) (e : XpurtEntry τ) : Prop where
  entryId_eq : e.entryId = entryId
  scheduleKey_eq : e.scheduleKey = key
  jobName_eq : e.jobName = d.jobName
  /-- The job belongs to a known network, and the dispatch id to that network. -/
  dispatch : ∃ ir op, splitJobName d.jobName irs.keys = .ok (e.network, e.instanceNo) ∧
    irs.get? e.network = some ir ∧ (indexIr ir).opByDid.get? d.id = some op ∧
    (indexIr ir).remap.get? d.id = some e.dispatchId ∧ e.op = op.op
  /-- The target resolves. -/
  target : ∃ label r, d.hardwareTarget = some label ∧ resolveTargets label kinds reg = .ok r ∧
    e.coreName = r.coreName ∧ e.coreKind = r.coreKind ∧ e.hart = r.hart ∧ e.harts = r.harts
  impl_eq : e.impl = (truthy d.impl).getD e.coreKind
  startTime_eq : e.startTime = d.start
  /-- The data dependencies are placed before the entry. -/
  deps : ∀ dep ∈ d.dependencies, dep ∈ sorted ∧ sorted.idxOf dep < entryId
  depsEntryIds_eq : e.depsEntryIds = sortedSet (d.dependencies.map sorted.idxOf)
  /-- The time dependency is placed before the entry. -/
  timeDep : (truthy d.timeDependency = none ∧ e.timeDepEntryId = -1) ∨
    ∃ dep, truthy d.timeDependency = some dep ∧ dep ∈ sorted ∧
      sorted.idxOf dep < entryId ∧ e.timeDepEntryId = sorted.idxOf dep

/-- An entry is built from its dispatch in the schedule. -/
theorem builtFrom_of_buildEntry {entryId : ℕ} {key : String} {e : XpurtEntry τ}
    (h : buildEntry raw irs reg kinds sorted entryId key = .ok e) :
    ∃ d, raw.get? key = some d ∧ BuiltFrom raw irs reg kinds sorted entryId key d e := by
  unfold buildEntry at h
  split at h
  next => cases h
  next d hd =>
    simp only [bind_eq_ok_iff] at h
    obtain ⟨⟨network, instanceNo, ir⟩, hnet, ⟨op, row⟩, hdisp, target, htarget, deps, hdeps,
      timeDep, htime, heq⟩ := h
    cases heq
    rw [resolveNetwork_eq_ok_iff] at hnet
    rw [resolveDispatch_eq_ok_iff] at hdisp
    rw [mapM_eq_ok_iff] at hdeps
    simp only [resolveDep_eq_ok_iff] at hdeps
    have hdepsEq := eq_map_idxOf_of_forall₂ hdeps
    refine ⟨d, hd, ⟨rfl, rfl, rfl, ⟨ir, op, hnet.1, hnet.2, hdisp.1, hdisp.2, rfl⟩, ?_, rfl, rfl,
      ?_, by rw [hdepsEq], resolveTimeDep_eq_ok_iff.mp htime⟩⟩
    · unfold resolveHardware at htarget
      split at htarget
      next => cases htarget
      next label hlabel => exact ⟨label, target, hlabel, htarget, rfl, rfl, rfl, rfl⟩
    · intro dep hdep
      obtain ⟨i, hi, rfl⟩ := mem_iff_getElem.mp hdep
      have hlen := hdeps.length_eq
      have := (forall₂_iff_get.mp hdeps).2 i hi (by omega)
      exact ⟨this.1, this.2.1⟩

end Entries

/-! ### The successful runs of the ingest -/

variable [LinearOrder τ] [Zero τ] [Add τ] {env : Env} {doc : Doc τ}

/-- When the ingest returns, and what. -/
theorem load_eq_ok_iff :
    load env doc irs reg kinds = .ok T ↔
      ∃ raw, completedTable env doc irs = .ok raw ∧
        (sortedKeys raw).length = raw.keys.length ∧
        ∃ entries, buildEntries raw irs reg kinds (sortedKeys raw) = .ok entries ∧
          T = withFanout entries := by
  have horder : ∀ {raw : RawTable τ} {sorted : List String}, orderKeys raw = .ok sorted ↔
      (sortedKeys raw).length = raw.keys.length ∧ sorted = sortedKeys raw := by
    intro raw sorted
    rw [orderKeys, ite_error_eq_ok_iff, not_not, Except.ok.injEq, eq_comm (a := sorted)]
  simp only [load, bind_eq_ok_iff, horder]
  constructor
  · rintro ⟨raw, hraw, sorted, ⟨hlen, rfl⟩, entries, hentries, heq⟩
    cases heq
    exact ⟨raw, hraw, hlen, entries, hentries, rfl⟩
  · rintro ⟨raw, hraw, hlen, entries, hentries, rfl⟩
    exact ⟨raw, hraw, _, ⟨hlen, rfl⟩, entries, hentries, rfl⟩

/-- The whole run: the entries are built from the dispatches in table order, and the waiting
entries are filled in. -/
theorem builtFrom_of_load (h : load env doc irs reg kinds = .ok T) :
    ∃ raw, completedTable env doc irs = .ok raw ∧
      (sortedKeys raw).length = raw.keys.length ∧ T.length = (sortedKeys raw).length ∧
      (∀ (i : ℕ) (hi : i < (sortedKeys raw).length) (hi' : i < T.length),
        ∃ d, raw.get? (sortedKeys raw)[i] = some d ∧
          BuiltFrom raw irs reg kinds (sortedKeys raw) i (sortedKeys raw)[i] d T[i]) ∧
      ∀ e ∈ T, e.fanoutEntryIds = sortedSet (fanoutOf T e.entryId) := by
  obtain ⟨raw, hraw, hlen, entries, hentries, rfl⟩ := load_eq_ok_iff.mp h
  obtain ⟨hlen', hbuild⟩ := buildEntries_eq_ok_iff.mp hentries
  refine ⟨raw, hraw, hlen, by simp [withFanout, hlen'], fun i hi hi' => ?_, fun e he => ?_⟩
  · obtain ⟨d, hd, hfrom⟩ := builtFrom_of_buildEntry (hbuild i hi (by omega))
    refine ⟨d, hd, ?_⟩
    simp only [withFanout, getElem_map]
    exact ⟨hfrom.1, hfrom.2, hfrom.3, hfrom.4, hfrom.5, hfrom.6, hfrom.7, hfrom.8, hfrom.9,
      hfrom.10⟩
  · have hfanout : ∀ p, fanoutOf (withFanout entries) p = fanoutOf entries p := by
      intro p
      simp [fanoutOf, withFanout, flatMap_map]
    obtain ⟨e₀, he₀, rfl⟩ := mem_map.mp he
    rw [hfanout]

/-- The table that the ingest returns is well formed. -/
theorem wellFormed_of_load (h : load env doc irs reg kinds = .ok T) : WellFormed T := by
  obtain ⟨raw, -, -, hlen, hbuilt, hfanout⟩ := builtFrom_of_load h
  have hmem : ∀ e ∈ T, ∃ i key d, BuiltFrom raw irs reg kinds (sortedKeys raw) i key d e := by
    intro e he
    obtain ⟨i, hi, rfl⟩ := mem_iff_getElem.mp he
    obtain ⟨d, -, hfrom⟩ := hbuilt i (hlen ▸ hi) hi
    exact ⟨i, _, d, hfrom⟩
  have htargets : ∀ e ∈ T, e.harts.head? = some e.hart ∧ e.harts.Nodup ∧
      (1 < e.harts.length → ∀ h ∈ e.harts, 0 ≤ h) := by
    intro e he
    obtain ⟨i, key, d, hfrom⟩ := hmem e he
    obtain ⟨label, r, -, hr, -, -, hhart, hharts⟩ := hfrom.target
    rw [hhart, hharts]
    exact resolveTargets_spec hr
  refine ⟨fun i hi => ?_, fun e he p hp => ?_, fun e he => ?_, fun e he => ?_,
    fun e he j => ?_, fun e he => ?_, fun e he => (htargets e he).1,
    fun e he => (htargets e he).2.1, fun e he => (htargets e he).2.2⟩
  · obtain ⟨d, -, hfrom⟩ := hbuilt i (hlen ▸ hi) hi
    exact hfrom.entryId_eq
  · obtain ⟨i, key, d, hfrom⟩ := hmem e he
    rw [hfrom.depsEntryIds_eq, mem_sortedSet, mem_map] at hp
    obtain ⟨dep, hdep, rfl⟩ := hp
    rw [hfrom.entryId_eq]
    exact (hfrom.deps dep hdep).2
  · obtain ⟨i, key, d, hfrom⟩ := hmem e he
    rw [hfrom.depsEntryIds_eq]
    exact nodup_sortedSet _
  · obtain ⟨i, key, d, hfrom⟩ := hmem e he
    rw [hfrom.entryId_eq]
    rcases hfrom.timeDep with ⟨-, hnone⟩ | ⟨dep, -, -, hlt, hsome⟩
    · exact Or.inl hnone
    · exact Or.inr ⟨_, hsome, hlt⟩
  · rw [hfanout e he, mem_sortedSet, mem_fanoutOf]
  · rw [hfanout e he]
    exact nodup_sortedSet _

end ModelBlaster

/-! ## The table as a linearisation -/

/-! ## The completion pass -/

namespace ModelBlaster

open List Fallible PyDict

variable {τ : Type}

/-! ### The scheduled jobs -/

private theorem foldl_schedJobs (items : List (String × RawEntry τ)) (job : String) :
    ∀ jobs : PyDict String (List ℤ),
      (items.foldl (fun jobs item =>
        jobs.set item.2.jobName ((jobs.get? item.2.jobName).getD [] ++ [item.2.id])) jobs).get?
          job =
        if ∃ item ∈ items, item.2.jobName = job then
          some ((jobs.get? job).getD [] ++
            (items.filter fun item => item.2.jobName = job).map fun item => item.2.id)
        else jobs.get? job := by
  induction items with
  | nil => simp
  | cons item rest ih =>
    intro jobs
    rw [foldl_cons, ih, get?_set]
    by_cases hjob : item.2.jobName = job
    · subst hjob
      by_cases hrest : ∃ i ∈ rest, i.2.jobName = item.2.jobName
      · simp [hrest]
      · have hnone : (rest.filter fun i => i.2.jobName = item.2.jobName) = [] := by
          rw [filter_eq_nil_iff]
          intro i hi
          simp only [decide_eq_true_eq]
          exact fun heq => hrest ⟨i, hi, heq⟩
        simp [hrest, hnone]
    · have hne : job ≠ item.2.jobName := Ne.symm hjob
      by_cases hrest : ∃ i ∈ rest, i.2.jobName = job <;> simp [hjob, hne, hrest]

variable {raw : RawTable τ} {job : String} {ids : List ℤ} {k : String} {raw' : RawTable τ}

/-- The scheduled ids of a job. -/
theorem mem_schedJobs (h : (job, ids) ∈ (schedJobs raw).items) {did : ℤ} :
    did ∈ ids ↔ ∃ k d, raw.get? k = some d ∧ d.jobName = job ∧ d.id = did := by
  rw [mem_items_iff, schedJobs, foldl_schedJobs] at h
  split_ifs at h
  · simp only [get?_empty, Option.getD_none, nil_append, Option.some.injEq] at h
    subst h
    simp only [mem_map, mem_filter, decide_eq_true_eq]
    constructor
    · rintro ⟨⟨k, d⟩, ⟨hitem, hjob⟩, rfl⟩
      exact ⟨k, d, mem_items_iff.mp hitem, hjob, rfl⟩
    · rintro ⟨k, d, hget, hjob, rfl⟩
      exact ⟨(k, d), ⟨mem_items_iff.mpr hget, hjob⟩, rfl⟩
  · cases h

/-- The jobs with an entry are the scheduled jobs. -/
theorem mem_keys_schedJobs :
    job ∈ (schedJobs raw).keys ↔ ∃ k d, raw.get? k = some d ∧ d.jobName = job := by
  rw [mem_keys_iff]
  simp only [schedJobs, foldl_schedJobs, get?_empty]
  constructor
  · rintro ⟨ids, h⟩
    split_ifs at h with hex
    · obtain ⟨⟨k, d⟩, hitem, hjob⟩ := hex
      exact ⟨k, d, mem_items_iff.mp hitem, hjob⟩
  · rintro ⟨k, d, hget, hjob⟩
    exact ⟨_, if_pos ⟨(k, d), mem_items_iff.mpr hget, hjob⟩⟩

/-! ### The network of a job -/

/-- The graph of the known network that a job belongs to. -/
def jobIr (irs : PyDict String Ir) (job : String) : Option Ir :=
  match splitJobName job irs.keys with
  | .ok (network, _) => irs.get? network
  | .error _ => none

/-- Names split, and the network of a job is the recorded one. -/
private def NetworksInv (irs : PyDict String Ir) (jobNet : PyDict String Ir)
    (items : List (String × RawEntry τ)) : Prop :=
  (∀ job ir, jobNet.get? job = some ir → jobIr irs job = some ir ∧
    ∃ r, splitJobName job irs.keys = .ok r) ∧
    ∀ item ∈ items, jobNet.get? item.2.jobName = jobIr irs item.2.jobName ∧
      ∃ r, splitJobName item.2.jobName irs.keys = .ok r

variable {irs jobNet : PyDict String Ir}

private theorem networksInv_addJobNetwork {jobNet' : PyDict String Ir}
    {done : List (String × RawEntry τ)} {item : String × RawEntry τ}
    (h : NetworksInv irs jobNet done) (hstep : addJobNetwork irs jobNet item = .ok jobNet') :
    NetworksInv irs jobNet' (done ++ [item]) := by
  unfold addJobNetwork at hstep
  split_ifs at hstep with hmem
  · cases hstep
    refine ⟨h.1, fun i hi => ?_⟩
    rcases mem_append.mp hi with hi | hi
    · exact h.2 i hi
    · rw [mem_singleton] at hi
      subst hi
      obtain ⟨ir, hir⟩ := mem_keys_iff.mp hmem
      obtain ⟨hjob, hsplit⟩ := h.1 _ _ hir
      exact ⟨hir.trans hjob.symm, hsplit⟩
  · rw [bind_eq_ok_iff] at hstep
    obtain ⟨⟨network, inst⟩, hsplit, hget⟩ := hstep
    have hjob : jobIr irs item.2.jobName = irs.get? network := by
      simp only [jobIr, hsplit]
    cases hir : irs.get? network with
    | none =>
      simp only [hir] at hget
      cases hget
      refine ⟨h.1, fun i hi => ?_⟩
      rcases mem_append.mp hi with hi | hi
      · exact h.2 i hi
      · rw [mem_singleton] at hi
        subst hi
        exact ⟨by rw [hjob, hir, get?_eq_none_iff]; exact hmem, _, hsplit⟩
    | some ir =>
      simp only [hir] at hget
      cases hget
      have hkeep : ∀ job ir', (jobNet.set item.2.jobName ir).get? job = some ir' →
          jobIr irs job = some ir' ∧ ∃ r, splitJobName job irs.keys = .ok r := by
        intro job ir' hget'
        rw [get?_set] at hget'
        split_ifs at hget' with heq
        · cases hget'
          subst heq
          exact ⟨hjob.trans hir, _, hsplit⟩
        · exact h.1 job ir' hget'
      refine ⟨hkeep, fun i hi => ?_⟩
      rcases mem_append.mp hi with hi | hi
      · obtain ⟨hold, hsplit'⟩ := h.2 i hi
        refine ⟨?_, hsplit'⟩
        rw [get?_set]
        split_ifs with heq
        · rw [heq, hjob, hir]
        · exact hold
      · rw [mem_singleton] at hi
        subst hi
        exact ⟨by rw [get?_set_self, hjob, hir], _, hsplit⟩

private theorem networksInv_foldlM (items : List (String × RawEntry τ)) :
    ∀ (jobNet jobNet' : PyDict String Ir) (done : List (String × RawEntry τ)),
      NetworksInv irs jobNet done → items.foldlM (addJobNetwork irs) jobNet = .ok jobNet' →
      NetworksInv irs jobNet' (done ++ items) := by
  induction items with
  | nil =>
    intro jobNet jobNet' done h hfold
    cases hfold
    simpa using h
  | cons item rest ih =>
    intro jobNet jobNet' done h hfold
    rw [foldlM_cons, bind_eq_ok_iff] at hfold
    obtain ⟨next, hnext, hrest⟩ := hfold
    have := ih next jobNet' (done ++ [item]) (networksInv_addJobNetwork h hnext) hrest
    simpa using this

/-- The recorded network of a scheduled job is the job's network. -/
theorem get?_jobNetworks (h : jobNetworks raw irs = .ok jobNet) (hjob : job ∈ (schedJobs raw).keys)
    :
    jobNet.get? job = jobIr irs job := by
  have hinv := networksInv_foldlM raw.items PyDict.empty jobNet [] ⟨by simp, by simp⟩ h
  obtain ⟨k, d, hget, rfl⟩ := mem_keys_schedJobs.mp hjob
  exact (hinv.2 (k, d) (by simpa using mem_items_iff.mpr hget)).1

/-- The names of all scheduled jobs split iff the networks of the jobs can be recorded. -/
theorem exists_jobNetworks_iff :
    (∃ jobNet, jobNetworks raw irs = .ok jobNet) ↔
      ∀ k d, raw.get? k = some d → ∃ r, splitJobName d.jobName irs.keys = .ok r := by
  constructor
  · rintro ⟨jobNet, h⟩ k d hget
    have hinv := networksInv_foldlM raw.items PyDict.empty jobNet [] ⟨by simp, by simp⟩ h
    exact (hinv.2 (k, d) (by simpa using mem_items_iff.mpr hget)).2
  · intro h
    have hfold : ∀ (items : List (String × RawEntry τ)),
        (∀ item ∈ items, ∃ r, splitJobName item.2.jobName irs.keys = .ok r) →
        ∀ jobNet, ∃ jobNet', items.foldlM (addJobNetwork irs) jobNet = .ok jobNet' := by
      intro items
      induction items with
      | nil => exact fun _ jobNet => ⟨jobNet, rfl⟩
      | cons item rest ih =>
        intro hsplit jobNet
        have hstep : ∃ next, addJobNetwork irs jobNet item = .ok next := by
          unfold addJobNetwork
          obtain ⟨⟨network, inst⟩, hr⟩ := hsplit item mem_cons_self
          split_ifs
          · exact ⟨_, rfl⟩
          · cases hir : irs.get? network with
            | none => exact ⟨jobNet, bind_eq_ok_iff.mpr ⟨_, hr, by simp [hir]⟩⟩
            | some ir =>
              exact ⟨jobNet.set item.2.jobName ir, bind_eq_ok_iff.mpr ⟨_, hr, by simp [hir]⟩⟩
        obtain ⟨next, hnext⟩ := hstep
        obtain ⟨jobNet', hrest⟩ := ih (fun i hi => hsplit i (mem_cons_of_mem _ hi)) next
        exact ⟨jobNet', by
          exact bind_eq_ok_iff.mpr ⟨next, hnext, hrest⟩⟩
    exact hfold raw.items (fun item hitem => h _ _ (mem_items_iff.mp hitem)) PyDict.empty

private theorem get?_jobNet_of_item (h : jobNetworks raw irs = .ok jobNet) :
    ∀ item ∈ (schedJobs raw).items, jobNet.get? item.1 = jobIr irs item.1 :=
  fun item hitem => get?_jobNetworks h (mem_map.mpr ⟨item, hitem, rfl⟩)

/-- In a named schedule the scheduled ids of a job are its dispatches. -/
theorem scheduled_of_named (h : Named raw) (hitem : (job, ids) ∈ (schedJobs raw).items) :
    Scheduled raw job ids := by
  intro did
  rw [mem_schedJobs hitem, mem_keys_iff]
  constructor
  · rintro ⟨d, hget⟩
    obtain ⟨hjob, hid⟩ := h.of_get? hget
    exact ⟨_, d, hget, hjob, hid⟩
  · rintro ⟨k, d, hget, rfl, rfl⟩
    exact ⟨d, h k d hget ▸ hget⟩

/-! ### All jobs -/

variable [LinearOrder τ] [Zero τ] [Add τ]

/-- The keys that the pass writes for one job. -/
def synthesizedKeysOf (irs : PyDict String Ir) (item : String × List ℤ) : List String :=
  match jobIr irs item.1 with
  | none => []
  | some ir => (missingDids (indexIr ir) item.2).map (dispatchKey item.1)

/-- The keys that the pass writes. -/
def synthesizedKeys (raw : RawTable τ) (irs : PyDict String Ir) : List String :=
  (schedJobs raw).items.flatMap (synthesizedKeysOf irs)

/-- The pass over one scheduled job. -/
def passJob (jobNet : PyDict String Ir) (raw : RawTable τ) (item : String × List ℤ) :
    RawTable τ :=
  match jobNet.get? item.1 with
  | none => raw
  | some ir => completeJob ir item.1 item.2 raw

private theorem mem_keys_foldl_passJob (items : List (String × List ℤ))
    (hnet : ∀ item ∈ items, jobNet.get? item.1 = jobIr irs item.1) :
    ∀ raw : RawTable τ, k ∈ (items.foldl (passJob jobNet) raw).keys ↔
      k ∈ raw.keys ∨ k ∈ items.flatMap (synthesizedKeysOf irs) := by
  induction items with
  | nil => simp
  | cons item rest ih =>
    intro raw
    have hhead : k ∈ (passJob jobNet raw item).keys ↔
        k ∈ raw.keys ∨ k ∈ synthesizedKeysOf irs item := by
      simp only [passJob, synthesizedKeysOf, hnet item mem_cons_self]
      split
      next => simp
      next ir _ =>
        rw [mem_keys_completeJob, mem_map]
        simp only [eq_comm (b := k)]
    rw [foldl_cons, ih (fun i hi => hnet i (mem_cons_of_mem _ hi)), hhead,
      flatMap_cons, mem_append, or_assoc]

/-- When the pass runs through, and with what. -/
theorem complete_eq_ok_iff :
    complete raw irs = .ok raw' ↔
      ∃ jobNet, jobNetworks raw irs = .ok jobNet ∧
        raw' = (schedJobs raw).items.foldl (passJob jobNet) raw := by
  rw [complete, bind_eq_ok_iff]
  constructor
  · rintro ⟨jobNet, h, heq⟩
    cases heq
    exact ⟨jobNet, h, rfl⟩
  · rintro ⟨jobNet, h, rfl⟩
    exact ⟨jobNet, h, rfl⟩

/-- The pass runs through iff the names of all scheduled jobs split. -/
theorem exists_complete_iff :
    (∃ raw', complete raw irs = .ok raw') ↔
      ∀ k d, raw.get? k = some d → ∃ r, splitJobName d.jobName irs.keys = .ok r := by
  rw [← exists_jobNetworks_iff]
  simp only [complete_eq_ok_iff]
  exact ⟨fun ⟨_, jobNet, h, _⟩ => ⟨jobNet, h⟩, fun ⟨jobNet, h⟩ => ⟨_, jobNet, h, rfl⟩⟩

/-- The keys after the pass are those of the schedule and the written ones. -/
theorem mem_keys_complete (h : complete raw irs = .ok raw') :
    k ∈ raw'.keys ↔ k ∈ raw.keys ∨ k ∈ synthesizedKeys raw irs := by
  obtain ⟨jobNet, hnet, rfl⟩ := complete_eq_ok_iff.mp h
  exact mem_keys_foldl_passJob _ (get?_jobNet_of_item hnet) raw

/-- The pass over one job does not change which dispatches another job has. -/
private theorem scheduled_passJob {item i : String × List ℤ} (hne : i.1 ≠ item.1)
    (h : Scheduled raw i.1 i.2) :
    Scheduled (passJob jobNet raw item) i.1 i.2 := by
  intro did
  rw [← h did, passJob]
  split
  next => rfl
  next ir _ =>
    rw [mem_keys_completeJob]
    refine or_iff_left ?_
    rintro ⟨did', -, heq⟩
    exact hne (dispatchKey_inj.mp heq).1

/-- The pass over a list of jobs: what holds of each of them in the end. -/
private theorem foldl_passJob_spec (items : List (String × List ℤ))
    (hnd : (items.map Prod.fst).Nodup)
    (hnet : ∀ item ∈ items, jobNet.get? item.1 = jobIr irs item.1) :
    ∀ raw : RawTable τ, (∀ item ∈ items, Scheduled raw item.1 item.2) →
      Kept raw (items.foldl (passJob jobNet) raw) ∧
        ∀ item ∈ items, ∀ ir, jobIr irs item.1 = some ir → ir.dispatchIds.Nodup →
          ∀ op ∈ ir.ops, ∀ c p, op.dispatchId = some c → p ∈ op.dependsOn →
            p ∈ ir.dispatchIds → c ∉ item.2 ∨ p ∉ item.2 →
            ∃ d, (items.foldl (passJob jobNet) raw).get? (dispatchKey item.1 c) = some d ∧
              dispatchKey item.1 p ∈ d.dependencies := by
  induction items with
  | nil => exact fun raw _ => ⟨Kept.refl raw, by simp⟩
  | cons item rest ih =>
    intro raw hsched
    rw [map_cons, nodup_cons] at hnd
    have hhead := hsched item mem_cons_self
    -- the keys written for this job belong to no later job
    have hrest : ∀ i ∈ rest, Scheduled (passJob jobNet raw item) i.1 i.2 := fun i hi =>
      scheduled_passJob (fun heq => hnd.1 (heq ▸ mem_map_of_mem hi))
        (hsched i (mem_cons_of_mem _ hi))
    have hkept : Kept raw (passJob jobNet raw item) := by
      unfold passJob
      split
      next => exact Kept.refl raw
      next ir _ => exact kept_completeJob hhead
    obtain ⟨hkept', hspec⟩ := ih hnd.2 (fun i hi => hnet i (mem_cons_of_mem _ hi))
      (passJob jobNet raw item) hrest
    refine ⟨hkept.trans hkept', fun i hi ir hir hids op hop c p hc hp hpir hmissing => ?_⟩
    rcases mem_cons.mp hi with rfl | hi
    · refine hkept'.mem_dependencies ?_
      have hpass : passJob jobNet raw i = completeJob ir i.1 i.2 raw := by
        simp only [passJob, hnet i mem_cons_self, hir]
      rw [hpass]
      exact mem_dependencies_completeJob hids hhead hop hc hp hpir hmissing
    · exact hspec i hi ir hir hids op hop c p hc hp hpir hmissing

section Named

variable {raw raw' : RawTable τ} {irs : PyDict String Ir}

section
variable (hnamed : Named raw) (h : complete raw irs = .ok raw')
include hnamed h

/-- On a named schedule the pass keeps every entry. -/
theorem kept_complete :
    Kept raw raw' := by
  obtain ⟨jobNet, hnet, rfl⟩ := complete_eq_ok_iff.mp h
  exact (foldl_passJob_spec _ (schedJobs raw).nodup (get?_jobNet_of_item hnet) raw
    fun item hitem => scheduled_of_named hnamed hitem).1

/-- After the pass every dispatch of the network of a scheduled job is present. -/
theorem mem_keys_of_complete {job : String} {ir : Ir} (hjob : job ∈ (schedJobs raw).keys)
    (hir : jobIr irs job = some ir) {did : ℤ} (hdid : did ∈ ir.dispatchIds) :
    dispatchKey job did ∈ raw'.keys := by
  obtain ⟨ids, hget⟩ := mem_keys_iff.mp hjob
  have hitem := mem_items_iff.mpr hget
  rw [mem_keys_complete h]
  by_cases hsched : did ∈ ids
  · exact Or.inl ((scheduled_of_named hnamed hitem did).mpr hsched)
  · refine Or.inr (mem_flatMap.mpr ⟨(job, ids), hitem, ?_⟩)
    simp only [synthesizedKeysOf, hir]
    exact mem_map.mpr ⟨did, mem_missingDids.mpr ⟨hdid, hsched⟩, rfl⟩

/-- After the pass every edge of the network at a dispatch that the schedule lacked is a
dependency. -/
theorem mem_dependencies_of_complete {job : String} {ir : Ir} (hjob : job ∈ (schedJobs raw).keys)
    (hir : jobIr irs job = some ir) (hids : ir.dispatchIds.Nodup) {op : Op} {c p : ℤ}
    (hop : op ∈ ir.ops) (hc : op.dispatchId = some c) (hp : p ∈ op.dependsOn)
    (hpir : p ∈ ir.dispatchIds)
    (hmissing : dispatchKey job c ∉ raw.keys ∨ dispatchKey job p ∉ raw.keys) :
    ∃ d, raw'.get? (dispatchKey job c) = some d ∧ dispatchKey job p ∈ d.dependencies := by
  obtain ⟨ids, hget⟩ := mem_keys_iff.mp hjob
  have hitem := mem_items_iff.mpr hget
  have hsched := scheduled_of_named hnamed hitem
  rw [hsched c, hsched p] at hmissing
  obtain ⟨jobNet, hnet, rfl⟩ := complete_eq_ok_iff.mp h
  exact (foldl_passJob_spec _ (schedJobs raw).nodup (get?_jobNet_of_item hnet) raw
    fun item hitem => scheduled_of_named hnamed hitem).2 (job, ids) hitem ir hir hids op hop c p
      hc hp hpir hmissing

/-- Induction over the writes of the pass. -/
theorem complete_induction {I : RawTable τ → Prop} (hraw : I raw)
    (hsynth : ∀ job ids ir, (job, ids) ∈ (schedJobs raw).items → jobIr irs job = some ir →
      ∀ cur did op, did ∈ missingDids (indexIr ir) ids →
        (indexIr ir).opByDid.get? did = some op → dispatchKey job did ∉ cur.keys → I cur →
        I (cur.set (dispatchKey job did) (synthEntry cur job did op)))
    (hthread : ∀ job ids ir, (job, ids) ∈ (schedJobs raw).items → jobIr irs job = some ir →
      ∀ cur op cdid consumer, op ∈ ir.ops → op.dispatchId = some cdid →
        cur.get? (dispatchKey job cdid) = some consumer →
        (∀ p ∈ missingDids (indexIr ir) ids, dispatchKey job p ∈ cur.keys) → I cur →
        I (cur.set (dispatchKey job cdid) { consumer with
          dependencies := threadDeps job (missingDids (indexIr ir) ids)
            consumer.dependencies op.dependsOn })) : I raw' := by
  obtain ⟨jobNet, hnet, rfl⟩ := complete_eq_ok_iff.mp h
  have hnet' := get?_jobNet_of_item hnet
  have hfold : ∀ items : List (String × List ℤ), (items.map Prod.fst).Nodup →
      (∀ item ∈ items, item ∈ (schedJobs raw).items) →
      ∀ cur, (∀ item ∈ items, Scheduled cur item.1 item.2) → I cur →
        I (items.foldl (passJob jobNet) cur) := by
    intro items
    induction items with
    | nil => exact fun _ _ _ _ hI => hI
    | cons item rest ih =>
      intro hnd hmem cur hsched hI
      rw [map_cons, nodup_cons] at hnd
      have hitem := hmem item mem_cons_self
      refine ih hnd.2 (fun i hi => hmem i (mem_cons_of_mem _ hi)) _ (fun i hi =>
        scheduled_passJob (fun heq => hnd.1 (heq ▸ mem_map_of_mem hi))
          (hsched i (mem_cons_of_mem _ hi))) ?_
      unfold passJob
      split
      next => exact hI
      next ir hir =>
        rw [hnet' item hitem] at hir
        exact completeJob_induction (hsched item mem_cons_self) hI
          (hsynth item.1 item.2 ir hitem hir) (hthread item.1 item.2 ir hitem hir)
  exact hfold _ (schedJobs raw).nodup (fun _ hitem => hitem) raw
    (fun item hitem => scheduled_of_named hnamed hitem) hraw

end

end Named

end ModelBlaster

namespace ModelBlaster

variable {τ : Type} [LinearOrder τ] [Zero τ] [Add τ]

/-- The table `T` is a greedy linearisation of the schedule `raw`. -/
structure Linearises (raw : RawTable τ) (T : List (XpurtEntry τ)) : Prop where
  /-- There is one entry for every key of the schedule. -/
  perm : (T.map XpurtEntry.scheduleKey).Perm raw.keys
  /-- An entry knows its position. -/
  entryId_eq : ∀ (i : ℕ) (hi : i < T.length), T[i].entryId = i
  /-- Dependencies and time dependencies point strictly backward. -/
  backward : ∀ e ∈ T, (∀ d ∈ e.depsEntryIds, d < e.entryId) ∧ e.timeDepEntryId < e.entryId
  /-- The dependencies are the positions of the keys that the schedule lists. -/
  mem_deps : ∀ e ∈ T, ∀ d, raw.get? e.scheduleKey = some d → ∀ p,
    p ∈ e.depsEntryIds ↔ ∃ dep ∈ d.dependencies, (T.map XpurtEntry.scheduleKey)[p]? = some dep
  /-- The time dependency is the position of the key that the schedule names. -/
  timeDep : ∀ e ∈ T, ∀ d, raw.get? e.scheduleKey = some d → ∀ p : ℕ,
    e.timeDepEntryId = p ↔
      ∃ dep, truthy d.timeDependency = some dep ∧
        (T.map XpurtEntry.scheduleKey)[p]? = some dep
  /-- The waiting entries are the converse of both references. -/
  mem_fanout : ∀ e ∈ T, ∀ j : ℕ, j ∈ e.fanoutEntryIds ↔
    ∃ c ∈ T, c.entryId = j ∧ (e.entryId ∈ c.depsEntryIds ∨ c.timeDepEntryId = e.entryId)
  /-- No reference and no waiting entry is listed twice. -/
  nodup : ∀ e ∈ T, e.depsEntryIds.Nodup ∧ e.fanoutEntryIds.Nodup
  /-- Every position holds the entry of least start time and key among those whose admitted
  predecessors are placed. -/
  greedy : KahnSort.Greedy (admission raw).1 raw.keys (rank raw) (T.map XpurtEntry.scheduleKey)

variable {env : Env} {doc : Doc τ} {irs : PyDict String Ir} {reg : CoreRegistry}
  {kinds : SlotKinds}

omit [LinearOrder τ] [Zero τ] [Add τ] in
private theorem getElem?_eq_some_iff_idxOf {l : List String} (hnd : l.Nodup) {p : ℕ} {k : String} :
    l[p]? = some k ↔ k ∈ l ∧ l.idxOf k = p := by
  constructor
  · intro h
    obtain ⟨hp, rfl⟩ := List.getElem?_eq_some_iff.mp h
    exact ⟨List.getElem_mem hp, hnd.idxOf_getElem p hp⟩
  · rintro ⟨hk, rfl⟩
    rw [List.getElem?_eq_getElem (List.idxOf_lt_length_of_mem hk)]
    simp

variable {raw : RawTable τ}

omit [Add τ] in
/-- The keys of the table are the sorted keys. -/
theorem map_scheduleKey_of_load {T : List (XpurtEntry τ)}
    (hlen : T.length = (sortedKeys raw).length)
    (hbuilt : ∀ (i : ℕ) (hi : i < (sortedKeys raw).length) (hi' : i < T.length),
      ∃ d, raw.get? (sortedKeys raw)[i] = some d ∧
        BuiltFrom raw irs reg kinds (sortedKeys raw) i (sortedKeys raw)[i] d T[i]) :
    T.map XpurtEntry.scheduleKey = sortedKeys raw := by
  refine List.ext_getElem (by simpa using hlen) fun i hi hi' => ?_
  obtain ⟨d, -, hfrom⟩ := hbuilt i hi' (by simpa using hi)
  rw [List.getElem_map]
  exact hfrom.scheduleKey_eq

/-- A document that is read is read as its dispatches, completed or not. -/
theorem completedTable_eq_ok_iff :
    completedTable env doc irs = .ok raw ↔
      ∃ raw₀, doc.dispatches = some raw₀ ∧ raw₀.items ≠ [] ∧ pdbCheck env doc = .ok () ∧
        completion env raw₀ irs = .ok raw := by
  simp only [completedTable, Fallible.bind_eq_ok_iff]
  constructor
  · rintro ⟨raw₀, hraw, ⟨⟩, hpdb, hcompl⟩
    unfold rawTable at hraw
    cases hdisp : doc.dispatches with
    | none =>
      simp only [hdisp] at hraw
      cases hraw
    | some raw₁ =>
      simp only [hdisp, Fallible.ite_error_eq_ok_iff] at hraw
      obtain ⟨hne, heq⟩ := hraw
      cases heq
      exact ⟨raw₀, rfl, hne, hpdb, hcompl⟩
  · rintro ⟨raw₀, hdisp, hne, hpdb, hcompl⟩
    exact ⟨raw₀, by simp [rawTable, hdisp, hne], (), hpdb, hcompl⟩

/-- Whenever the ingest returns, its table linearises the completed schedule, whose keys are
those of the document and those that the completion pass writes. -/
theorem load_linearises {T : List (XpurtEntry τ)} (h : load env doc irs reg kinds = .ok T) :
    ∃ raw₀ raw, doc.dispatches = some raw₀ ∧ completedTable env doc irs = .ok raw ∧
      (∀ k, k ∈ raw.keys ↔ k ∈ raw₀.keys ∨
        (env.skipIrCompletion = false ∧ k ∈ synthesizedKeys raw₀ irs)) ∧
      Linearises raw T := by
  obtain ⟨raw, hraw, hall, hlen, hbuilt, -⟩ := builtFrom_of_load h
  have hwf := wellFormed_of_load h
  have hkeys := map_scheduleKey_of_load hlen hbuilt
  have hgreedy := greedy_sortedKeys raw
  obtain ⟨raw₀, hdoc, -, -, hcompl⟩ := completedTable_eq_ok_iff.mp hraw
  refine ⟨raw₀, raw, hdoc, hraw, fun k => ?_, ?_⟩
  · unfold completion at hcompl
    split_ifs at hcompl with hskip
    · cases hcompl
      simp [hskip]
    · rw [mem_keys_complete hcompl]
      simp [hskip]
  have hentry : ∀ e ∈ T, ∀ d, raw.get? e.scheduleKey = some d →
      BuiltFrom raw irs reg kinds (sortedKeys raw) e.entryId e.scheduleKey d e := by
    intro e he d hd
    obtain ⟨i, hi, rfl⟩ := List.mem_iff_getElem.mp he
    obtain ⟨d', hd', hfrom⟩ := hbuilt i (hlen ▸ hi) hi
    rw [hwf.entryId_eq i hi, hfrom.scheduleKey_eq]
    rw [hfrom.scheduleKey_eq, hd'] at hd
    cases hd
    exact hfrom
  refine ⟨?_, hwf.entryId_eq, fun e he => ⟨hwf.deps_lt e he, ?_⟩, fun e he d hd p => ?_,
    fun e he d hd p => ?_, hwf.mem_fanout,
    fun e he => ⟨hwf.deps_nodup e he, hwf.fanout_nodup e he⟩, ?_⟩
  · rw [hkeys]
    exact perm_sortedKeys hall
  · rcases hwf.timeDep_lt e he with hnone | ⟨p, hp, hlt⟩ <;> omega
  · have hfrom := hentry e he d hd
    rw [hkeys, hfrom.depsEntryIds_eq, mem_sortedSet, List.mem_map]
    refine exists_congr fun dep => and_congr_right fun hdep => ?_
    rw [getElem?_eq_some_iff_idxOf hgreedy.nodup]
    exact ⟨fun heq => ⟨(hfrom.deps dep hdep).1, heq⟩, fun hpos => hpos.2⟩
  · have hfrom := hentry e he d hd
    rw [hkeys]
    rcases hfrom.timeDep with ⟨hnone, hneg⟩ | ⟨dep, hdep, hmem, -, hpos⟩
    · have hneg' : e.timeDepEntryId ≠ p := by omega
      simp [hnone, hneg']
    · simp only [hdep, Option.some.injEq, exists_eq_left']
      rw [getElem?_eq_some_iff_idxOf hgreedy.nodup, hpos, Nat.cast_inj]
      exact ⟨fun heq => ⟨hmem, heq⟩, fun h => h.2⟩
  · rw [hkeys]
    exact hgreedy

/-- The linearisation of a completed schedule. -/
theorem load_linearises_head :
    ∃ raw₀ raw, (⟨some headRaw, none, []⟩ : Doc ℕ).dispatches = some raw₀ ∧
      completedTable {} ⟨some headRaw, none, []⟩ pairIrs = .ok raw ∧
      (∀ k, k ∈ raw.keys ↔ k ∈ raw₀.keys ∨
        (({} : Env).skipIrCompletion = false ∧ k ∈ synthesizedKeys raw₀ pairIrs)) ∧
      Linearises raw headTable :=
  load_linearises (by decide :
    load {} ⟨some headRaw, none, []⟩ pairIrs pairRegistry {} = .ok headTable)

end ModelBlaster

import ModelBlaster.Ingest.Order
import ModelBlaster.Library.PyList

/-!
# Which schedules of one model are accepted

A document is accepted iff it is a valid schedule: the names match, the entries place every dispatch
once on a core that can run it, explicit dependencies contain those of the graph, and the ordering
has no cycle. Everything else is a `ValueError`.

## Main definitions

* `Registry.resolveTarget`: the cores that can run an op as placed;
* `placeEntry`: the checks on an entry;
* `load`: the whole ingest;
* `Valid`: the documents that are accepted;
* `Accepted`: what `load` returns for them.

## Main results

* `load_iff`: `load` accepts the valid documents and raises a `ValueError` for the others;
* `load_not_literal`: an empty name, a graph without dispatches and an op that no core runs.
-/

/-! ## Schedules of one model -/

namespace ModelBlaster.SingleModel

/-! ### The registry -/

/-- What the checks read of a core. -/
structure Core where
  name : String
  kind : String
  capabilities : List String
deriving DecidableEq, Repr

/-- A core registry with its indices. -/
structure Registry where
  system : String
  cores : List Core
  byName : PyDict String Core
  byKind : PyDict String (List Core)

/-- `cores_for_op` -/
def Registry.coresForOp (reg : Registry) (op : String) : List Core :=
  reg.cores.filter fun c => op ∈ c.capabilities

/-- `resolve_target`: the cores that a target names and that can run an op. -/
def Registry.resolveTarget (reg : Registry) (target op : String) : List Core :=
  if target = "any" then reg.coresForOp op
  else
    match reg.byName.get? target with
    | some c => if op ∈ c.capabilities then [c] else []
    | none =>
      match reg.byKind.get? target with
      | some cores => cores.filter fun c => op ∈ c.capabilities
      | none => []

/-! ### The graph and the document -/

/-- What the ingest reads of an op of the graph. -/
structure IrOp where
  dispatchId : Option ℤ
  op : String
  name : Option String
  dependsOn : List ℤ
deriving DecidableEq, Repr

/-- What the ingest reads of a graph. -/
structure Ir where
  name : Option String
  ops : List IrOp

/-- `_ir_dispatch_index` -/
def irDispatchIndex (ir : Ir) : PyDict ℤ IrOp :=
  PyDict.ofList (ir.ops.filterMap fun op => op.dispatchId.map fun did => (did, op))

/-- An entry of the document; `none` where a field is missing or null. -/
structure Entry where
  dispatchId : Option ℤ
  core : Option String
  dependsOn : Option (List ℤ)
  priority : Option ℤ
  startTime : Option ℤ
deriving DecidableEq, Repr

/-- The document; `none` where a field is missing, null or, for the entries, not a list. -/
structure Doc where
  model : Option String
  registry : Option String
  dispatches : Option (List Entry)

/-- An entry after the checks. -/
structure DispatchPlacement where
  dispatchId : ℤ
  core : String
  dependsOn : List ℤ
  priority : ℤ
  startTime : Option ℤ
  op : String
  name : String
deriving DecidableEq, Repr

/-- What `load` returns. -/
structure Schedule where
  model : String
  registrySystem : String
  placements : List DispatchPlacement
deriving DecidableEq, Repr

/-- The causes of a `ValueError`. -/
inductive ValueError where
  /-- `schedule.model != ir.name` -/
  | model (given : String) (name : Option String)
  /-- `schedule.registry != registry.system` -/
  | registry (given system : String)
  /-- `'dispatches' must be a non-empty list` -/
  | noDispatches
  /-- `every entry needs a dispatch_id` -/
  | missingId
  /-- `IR has no such dispatch` -/
  | unknownId (did : ℤ)
  /-- `schedule lists dispatch_id twice` -/
  | twice (did : ℤ)
  /-- `core not in registry` -/
  | unknownCore (did : ℤ) (core : String) (known : List String)
  /-- `cannot execute this op` -/
  | incapable (did : ℤ) (op core : String)
  /-- `schedule.depends_on drops IR data deps` -/
  | dropsDeps (did : ℤ) (given missing : List ℤ)
  /-- `depends_on references unknown id`: one of those. -/
  | unknownDep (did : ℤ) (unknown : List ℤ)
  /-- `schedule misses dispatches from IR` -/
  | misses (missing : List ℤ)
  /-- `schedule has a dependency cycle` -/
  | cycle
deriving DecidableEq, Repr

/-- What `load` may raise. -/
inductive LoadError where
  | value (e : ValueError)
  /-- `KeyError` -/
  | key (did : ℤ)
deriving DecidableEq, Repr

/-! ### The checks -/

/-- The dependencies of a placement: those of the graph unless the entry gives some, which have to
contain these. -/
def placementDeps (idx : PyDict ℤ IrOp) (did : ℤ) (op : IrOp) (dependsOn : Option (List ℤ)) :
    Except LoadError (List ℤ) :=
  match dependsOn with
  | none => .ok (PyList.sortedSet op.dependsOn)
  | some raw =>
    let missing := op.dependsOn.filter (· ∉ raw)
    if missing ≠ [] then
      .error (.value (.dropsDeps did (PyList.sortedSet raw) (PyList.sortedSet missing)))
    else
      let unknown := raw.filter (· ∉ idx.keys)
      if unknown ≠ [] then .error (.value (.unknownDep did unknown))
      else .ok (PyList.sortedSet raw)

/-- The checks on an entry, after the entries with the ids `seen`. -/
def placeEntry (idx : PyDict ℤ IrOp) (reg : Registry) (seen : List ℤ) (e : Entry) :
    Except LoadError DispatchPlacement :=
  match e.dispatchId with
  | none => .error (.value .missingId)
  | some did =>
    match idx.get? did with
    | none => .error (.value (.unknownId did))
    | some op =>
      if did ∈ seen then .error (.value (.twice did))
      else
        let core := e.core.getD "any"
        if core ≠ "any" ∧ core ∉ reg.byName.keys then
          .error (.value (.unknownCore did core
            (("any" :: reg.byName.keys).dedup.insertionSort (· ≤ ·))))
        else if reg.resolveTarget core op.op = [] then
          .error (.value (.incapable did op.op core))
        else do
          let deps ← placementDeps idx did op e.dependsOn
          pure {
            dispatchId := did
            core := core
            dependsOn := deps
            priority := e.priority.getD 0
            startTime := e.startTime
            op := op.op
            name := op.name.getD ("dispatch_" ++ toString did) }

/-- The placements of all entries. -/
def placements (idx : PyDict ℤ IrOp) (reg : Registry) (raw : List Entry) :
    Except LoadError (List DispatchPlacement) :=
  raw.foldlM (fun done e => do
    let p ← placeEntry idx reg (done.map DispatchPlacement.dispatchId) e
    pure (done ++ [p])) []

/-- The dependencies of the placement with an id. -/
def depsOf (ps : List DispatchPlacement) (did : ℤ) : List ℤ :=
  (ps.find? fun p => p.dispatchId = did).elim [] DispatchPlacement.dependsOn

/-- The cycle check: a stack of the placements whose dependencies are visited. -/
def checkCycle (ps : List DispatchPlacement) : Except LoadError Unit :=
  let ids := ps.map DispatchPlacement.dispatchId
  -- a dependency without a placement has no list of children
  match (ps.flatMap DispatchPlacement.dependsOn).find? (· ∉ ids) with
  | some d => .error (.key d)
  | none =>
    let visited := (KahnLoop.sort (KahnLoop.Policy.last ℤ) (depsOf ps) ids).length
    if visited ≠ ps.length then .error (.value .cycle) else .ok ()

/-- The name of the model has to match when the document gives one. -/
def checkModel (doc : Doc) (ir : Ir) : Except LoadError Unit :=
  match truthy doc.model with
  | some m => if some m ≠ ir.name then .error (.value (.model m ir.name)) else .ok ()
  | none => .ok ()

/-- The name of the registry has to match when the document gives one. -/
def checkRegistry (doc : Doc) (reg : Registry) : Except LoadError Unit :=
  match truthy doc.registry with
  | some r => if r ≠ reg.system then .error (.value (.registry r reg.system)) else .ok ()
  | none => .ok ()

/-- The entries, of which there have to be some. -/
def rawDispatches (doc : Doc) : Except LoadError (List Entry) :=
  match doc.dispatches with
  | none => .error (.value .noDispatches)
  | some raw => if raw = [] then .error (.value .noDispatches) else .ok raw

/-- Every dispatch of the graph has to be placed. -/
def checkCoverage (idx : PyDict ℤ IrOp) (ps : List DispatchPlacement) : Except LoadError Unit :=
  let missing := idx.keys.filter (· ∉ ps.map DispatchPlacement.dispatchId)
  if missing ≠ [] then .error (.value (.misses (PyList.sortedSet missing))) else .ok ()

/-- `load` -/
def load (doc : Doc) (ir : Ir) (reg : Registry) : Except LoadError Schedule := do
  checkModel doc ir
  checkRegistry doc reg
  let idx := irDispatchIndex ir
  let raw ← rawDispatches doc
  let ps ← placements idx reg raw
  checkCoverage idx ps
  checkCycle ps
  pure {
    model := ir.name.getD ""
    registrySystem := reg.system
    placements := ps.insertionSort fun a b => a.dispatchId ≤ b.dispatchId }

open List Fallible

/-! ### Valid documents -/

/-- The registry has a core that can run the op as placed. -/
def CanRun (reg : Registry) (core op : String) : Prop :=
  if core = "any" then ∃ c ∈ reg.cores, op ∈ c.capabilities
  else ∃ c, reg.byName.get? core = some c ∧ op ∈ c.capabilities

/-- The ordering that the entries ask for, as edges from a dependency to what waits for it. -/
def ordering (idx : PyDict ℤ IrOp) (raw : List Entry) : List (ℤ × ℤ) :=
  raw.flatMap fun e =>
    match e.dispatchId with
    | none => []
    | some did => (e.dependsOn.getD ((idx.get? did).elim [] IrOp.dependsOn)).map fun d => (d, did)

/-- An entry places a dispatch of the graph. -/
structure ValidEntry (idx : PyDict ℤ IrOp) (reg : Registry) (e : Entry) (did : ℤ) (op : IrOp) :
    Prop where
  dispatchId : e.dispatchId = some did
  found : idx.get? did = some op
  core : CanRun reg (e.core.getD "any") op.op
  dependsOn : ∀ raw, e.dependsOn = some raw → op.dependsOn ⊆ raw ∧ raw ⊆ idx.keys

/-- The schedules of a graph on a registry. -/
structure Valid (ir : Ir) (reg : Registry) (doc : Doc) : Prop where
  model : ∀ m, doc.model = some m → m ≠ "" → ir.name = some m
  registry : ∀ r, doc.registry = some r → r ≠ "" → r = reg.system
  entries : ∃ raw, doc.dispatches = some raw ∧ raw ≠ [] ∧
    (∀ e ∈ raw, ∃ did op, ValidEntry (irDispatchIndex ir) reg e did op) ∧
    (raw.map Entry.dispatchId).Nodup ∧
    (∀ did ∈ (irDispatchIndex ir).keys, some did ∈ raw.map Entry.dispatchId) ∧
    EdgeList.Acyclic (ordering (irDispatchIndex ir) raw)

/-! ### The checks -/

section Checks

variable {idx : PyDict ℤ IrOp} {reg : Registry} {core op : String} {p : DispatchPlacement}
  {e : Entry} {seen : List ℤ} {err : LoadError} {raw : List Entry}

theorem resolveTarget_ne_nil_iff (hcore : ¬(core ≠ "any" ∧ core ∉ reg.byName.keys)) :
    reg.resolveTarget core op ≠ [] ↔ CanRun reg core op := by
  rw [Registry.resolveTarget, CanRun]
  by_cases hany : core = "any"
  · rw [if_pos hany, if_pos hany, Registry.coresForOp, ne_eq, filter_eq_nil_iff]
    simp
  · rw [if_neg hany, if_neg hany]
    have hkey : core ∈ reg.byName.keys := by
      by_contra hnot
      exact hcore ⟨hany, hnot⟩
    obtain ⟨c, hc⟩ := PyDict.mem_keys_iff.mp hkey
    simp [hc]

theorem CanRun.known (h : CanRun reg core op) :
    ¬(core ≠ "any" ∧ core ∉ reg.byName.keys) := by
  rintro ⟨hany, hkey⟩
  rw [CanRun, if_neg hany] at h
  obtain ⟨c, hc, -⟩ := h
  exact hkey (PyDict.mem_keys_of_get? hc)

/-- The dependencies that a placement gets. -/
def placedDeps (op : IrOp) (e : Entry) : List ℤ :=
  PyList.sortedSet (e.dependsOn.getD op.dependsOn)

theorem placementDeps_eq_ok_iff {did : ℤ} {op : IrOp} {dependsOn : Option (List ℤ)} {deps : List ℤ}
    :
    placementDeps idx did op dependsOn = .ok deps ↔
      (∀ raw, dependsOn = some raw → op.dependsOn ⊆ raw ∧ raw ⊆ idx.keys) ∧
        deps = PyList.sortedSet (dependsOn.getD op.dependsOn) := by
  cases dependsOn with
  | none => simp [placementDeps, eq_comm]
  | some raw =>
    simp only [placementDeps, ite_error_eq_ok_iff, not_not, filter_eq_nil_iff,
      Except.ok.injEq, Option.some.injEq, forall_eq', Option.getD_some, decide_eq_true_eq]
    rw [← and_assoc, eq_comm]
    rfl

/-- The placement that an entry becomes. -/
def placement (e : Entry) (did : ℤ) (op : IrOp) : DispatchPlacement where
  dispatchId := did
  core := e.core.getD "any"
  dependsOn := placedDeps op e
  priority := e.priority.getD 0
  startTime := e.startTime
  op := op.op
  name := op.name.getD ("dispatch_" ++ toString did)

/-- An entry is placed iff it is valid and its dispatch is not placed yet. -/
theorem placeEntry_eq_ok_iff :
    placeEntry idx reg seen e = .ok p ↔
      ∃ did op, ValidEntry idx reg e did op ∧ did ∉ seen ∧ p = placement e did op := by
  constructor
  · intro h
    rw [placeEntry] at h
    split at h
    · cases h
    next did hdid =>
      split at h
      · cases h
      next op hop =>
        simp only [ite_error_eq_ok_iff, bind_eq_ok_iff] at h
        obtain ⟨hseen, hcore, hrun, deps, hdeps, h⟩ := h
        obtain ⟨hcontained, rfl⟩ := placementDeps_eq_ok_iff.mp hdeps
        cases h
        exact ⟨did, op, ⟨hdid, hop, (resolveTarget_ne_nil_iff hcore).mp hrun, hcontained⟩, hseen,
          rfl⟩
  · rintro ⟨did, op, hvalid, hseen, rfl⟩
    have hcore := hvalid.core.known
    rw [placeEntry, hvalid.dispatchId]
    simp only [hvalid.found, ite_error_eq_ok_iff, bind_eq_ok_iff]
    exact ⟨hseen, hcore, (resolveTarget_ne_nil_iff hcore).mpr hvalid.core, _,
      placementDeps_eq_ok_iff.mpr ⟨hvalid.dependsOn, rfl⟩, rfl⟩

/-- An entry that is not placed raises a `ValueError`. -/
theorem exists_value_of_placeEntry (h : placeEntry idx reg seen e = .error err) :
    ∃ v, err = .value v := by
  have hdeps : ∀ {did : ℤ} {op : IrOp} {err : LoadError},
      placementDeps idx did op e.dependsOn = .error err → ∃ v, err = .value v := by
    intro did op err h
    cases hraw : e.dependsOn with
    | none =>
      rw [hraw] at h
      cases h
    | some raw =>
      simp only [hraw, placementDeps] at h
      split_ifs at h <;> cases h <;> exact ⟨_, rfl⟩
  rw [placeEntry] at h
  split at h
  · cases h
    exact ⟨_, rfl⟩
  next did hdid =>
    split at h
    · cases h
      exact ⟨_, rfl⟩
    next op hop =>
      simp only at h
      split_ifs at h
      · cases h
        exact ⟨_, rfl⟩
      · cases h
        exact ⟨_, rfl⟩
      · cases h
        exact ⟨_, rfl⟩
      · cases hd : placementDeps idx did op e.dependsOn with
        | error err' =>
          rw [hd] at h
          cases h
          exact hdeps hd
        | ok deps =>
          rw [hd] at h
          cases h

/-! ### All entries -/

/-- The entries, their dispatches and placements. -/
structure PlacedAs (idx : PyDict ℤ IrOp) (reg : Registry) (e : Entry) (p : DispatchPlacement) :
    Prop where
  valid : ∃ did op, ValidEntry idx reg e did op ∧ p = placement e did op

theorem PlacedAs.dispatchId (h : PlacedAs idx reg e p) :
    e.dispatchId = some p.dispatchId := by
  obtain ⟨did, op, hvalid, rfl⟩ := h.valid
  exact hvalid.dispatchId

/-- The loop places all entries iff each is valid and no dispatch is listed twice. -/
theorem placements_eq_ok_iff {ps : List DispatchPlacement} :
    placements idx reg raw = .ok ps ↔
      List.Forall₂ (PlacedAs idx reg) raw ps ∧ (ps.map DispatchPlacement.dispatchId).Nodup := by
  have hrun : ∀ (raw : List Entry) (done ps : List DispatchPlacement),
      (done.map DispatchPlacement.dispatchId).Nodup →
      (raw.foldlM (fun done e => do
          let p ← placeEntry idx reg (done.map DispatchPlacement.dispatchId) e
          pure (done ++ [p])) done = .ok ps ↔
        ∃ new, ps = done ++ new ∧ List.Forall₂ (PlacedAs idx reg) raw new ∧
          (ps.map DispatchPlacement.dispatchId).Nodup) := by
    intro raw
    induction raw with
    | nil =>
      intro done ps hnd
      constructor
      · intro h
        cases h
        exact ⟨[], (append_nil _).symm, .nil, hnd⟩
      · rintro ⟨new, rfl, hnew, -⟩
        cases hnew
        rw [append_nil]
        rfl
    | cons e raw ih =>
      intro done ps hnd
      simp only [foldlM_cons, bind_eq_ok_iff, placeEntry_eq_ok_iff]
      constructor
      · rintro ⟨done', ⟨p, ⟨did, op, hvalid, hseen, rfl⟩, hdone'⟩, hrest⟩
        cases hdone'
        have hnd' : ((done ++ [placement e did op]).map DispatchPlacement.dispatchId).Nodup := by
          rw [map_append]
          exact nodup_append.mpr ⟨hnd, nodup_singleton _, by
            rintro a ha b hb rfl
            rw [mem_singleton.mp hb] at ha
            exact hseen ha⟩
        obtain ⟨new, rfl, hnew, hnodup⟩ := (ih _ _ hnd').mp hrest
        exact ⟨placement e did op :: new, by simp, .cons ⟨did, op, hvalid, rfl⟩ hnew, hnodup⟩
      · rintro ⟨new, rfl, hnew, hnodup⟩
        cases hnew with
        | @cons _ p _ new hp hnew =>
          obtain ⟨did, op, hvalid, rfl⟩ := hp.valid
          have hassoc : done ++ placement e did op :: new =
              (done ++ [placement e did op]) ++ new := by simp
          rw [hassoc, map_append] at hnodup
          have hnd' := (nodup_append.mp hnodup).1
          have hseen : did ∉ done.map DispatchPlacement.dispatchId := by
            rw [map_append, nodup_append] at hnd'
            exact fun hmem => hnd'.2.2 did hmem did (by simp [placement]) rfl
          refine ⟨done ++ [placement e did op], ⟨_, ⟨did, op, hvalid, hseen, rfl⟩, rfl⟩, ?_⟩
          exact (ih _ _ hnd').mpr ⟨new, hassoc, hnew, by rwa [hassoc, map_append]⟩
  rw [placements, hrun raw [] ps nodup_nil]
  constructor
  · rintro ⟨new, rfl, hnew, hnodup⟩
    exact ⟨hnew, hnodup⟩
  · exact fun ⟨hnew, hnodup⟩ => ⟨ps, rfl, hnew, hnodup⟩

/-- A loop that does not place all entries raises a `ValueError`. -/
theorem exists_value_of_placements (h : placements idx reg raw = .error err) :
    ∃ v, err = .value v := by
  have hrun : ∀ (raw : List Entry) (done : List DispatchPlacement), raw.foldlM (fun done e => do
        let p ← placeEntry idx reg (done.map DispatchPlacement.dispatchId) e
        pure (done ++ [p])) done = .error err → ∃ v, err = .value v := by
    intro raw
    induction raw with
    | nil => exact fun done h => by cases h
    | cons e raw ih =>
      intro done h
      rw [foldlM_cons] at h
      cases hp : placeEntry idx reg (done.map DispatchPlacement.dispatchId) e with
      | error err' =>
        rw [hp] at h
        cases h
        exact exists_value_of_placeEntry hp
      | ok p =>
        rw [hp] at h
        exact ih _ h
  exact hrun raw [] h

/-- The dependencies of a placement contain those of the graph, and are dispatches of the graph when
the ones of the graph are. -/
theorem PlacedAs.dependsOn (h : PlacedAs idx reg e p)
    (hir : ∀ did op, idx.get? did = some op → op.dependsOn ⊆ idx.keys) :
    ∃ op, idx.get? p.dispatchId = some op ∧ op.dependsOn ⊆ p.dependsOn ∧
      p.dependsOn ⊆ idx.keys := by
  obtain ⟨did, op, hvalid, rfl⟩ := h.valid
  refine ⟨op, hvalid.found, fun d hd => ?_, fun d hd => ?_⟩
  · rw [placement, placedDeps, PyList.mem_sortedSet]
    cases hraw : e.dependsOn with
    | none => exact hd
    | some raw => exact (hvalid.dependsOn raw hraw).1 hd
  · rw [placement, placedDeps, PyList.mem_sortedSet] at hd
    cases hraw : e.dependsOn with
    | none =>
      rw [hraw] at hd
      exact hir did op hvalid.found hd
    | some raw =>
      rw [hraw] at hd
      exact (hvalid.dependsOn raw hraw).2 hd

/-! ### The cycle check -/

section Cycle

variable {raw : List Entry} {ps : List DispatchPlacement}

theorem depsOf_eq (hnd : (ps.map DispatchPlacement.dispatchId).Nodup) {p : DispatchPlacement}
    (hp : p ∈ ps) : depsOf ps p.dispatchId = p.dependsOn := by
  obtain ⟨l₁, l₂, rfl⟩ := append_of_mem hp
  have hfirst : ∀ q ∈ l₁, q.dispatchId ≠ p.dispatchId := by
    rw [map_append, nodup_append] at hnd
    exact fun q hq => hnd.2.2 _ (mem_map_of_mem hq) p.dispatchId (by simp)
  rw [depsOf, find?_append, find?_eq_none.mpr (by simpa using hfirst)]
  simp

section
variable (hplaced : List.Forall₂ (PlacedAs idx reg) raw ps)
  (hnd : (ps.map DispatchPlacement.dispatchId).Nodup)
include hplaced hnd

/-- The edges of the placements are the ordering that the entries ask for. -/
theorem mem_ordering_iff {d did : ℤ} :
    (d, did) ∈ ordering idx raw ↔
      (d, did) ∈ KahnLoop.edges (depsOf ps) (ps.map DispatchPlacement.dispatchId) := by
  have hedge : ∀ e p, PlacedAs idx reg e p →
      ((d, did) ∈ ordering idx [e] ↔ did = p.dispatchId ∧ d ∈ p.dependsOn) := by
    rintro e p ⟨did', op, hvalid, rfl⟩
    simp only [ordering, flatMap_cons, flatMap_nil, append_nil, hvalid.dispatchId,
      hvalid.found, Option.elim_some, mem_map, Prod.mk.injEq, placement, placedDeps,
      PyList.mem_sortedSet]
    constructor
    · rintro ⟨d', hd', rfl, rfl⟩
      exact ⟨rfl, hd'⟩
    · rintro ⟨rfl, hd⟩
      exact ⟨d, hd, rfl, rfl⟩
  have hall : (d, did) ∈ ordering idx raw ↔ ∃ p ∈ ps, did = p.dispatchId ∧ d ∈ p.dependsOn := by
    clear hnd
    induction hplaced with
    | nil => simp [ordering]
    | @cons e p raw ps hp _ ih =>
      have hcons : ordering idx (e :: raw) = ordering idx [e] ++ ordering idx raw := by
        simp [ordering]
      rw [hcons, mem_append, hedge e p hp, ih]
      simp
  rw [hall, KahnLoop.mem_edges]
  constructor
  · rintro ⟨p, hp, rfl, hd⟩
    exact ⟨mem_map_of_mem hp, by rwa [depsOf_eq hnd hp]⟩
  · rintro ⟨hdid, hd⟩
    obtain ⟨p, hp, rfl⟩ := mem_map.mp hdid
    exact ⟨p, hp, rfl, by rwa [depsOf_eq hnd hp] at hd⟩

/-- When every dependency is placed, the check passes iff the ordering has no cycle, and fails with
a `ValueError`. -/
theorem checkCycle_iff (hdeps : ∀ p ∈ ps, p.dependsOn ⊆ ps.map DispatchPlacement.dispatchId) :
    (checkCycle ps = .ok () ↔ EdgeList.Acyclic (ordering idx raw)) ∧
      ∀ err, checkCycle ps = .error err → ∃ v, err = .value v := by
  have hfind : (ps.flatMap DispatchPlacement.dependsOn).find?
      (· ∉ ps.map DispatchPlacement.dispatchId) = none := by
    rw [find?_eq_none]
    intro d hd
    obtain ⟨p, hp, hd⟩ := mem_flatMap.mp hd
    simpa using hdeps p hp hd
  have hsub : ∀ v ∈ ps.map DispatchPlacement.dispatchId,
      depsOf ps v ⊆ ps.map DispatchPlacement.dispatchId := by
    intro v hv
    obtain ⟨p, hp, rfl⟩ := mem_map.mp hv
    rw [depsOf_eq hnd hp]
    exact hdeps p hp
  have hacyc : EdgeList.Acyclic (ordering idx raw) ↔
      EdgeList.Acyclic (KahnLoop.edges (depsOf ps) (ps.map DispatchPlacement.dispatchId)) :=
    ⟨fun h => h.mono fun e he => (mem_ordering_iff hplaced hnd).mpr he,
      fun h => h.mono fun e he => (mem_ordering_iff hplaced hnd).mp he⟩
  rw [hacyc, ← KahnLoop.length_sort_eq_iff (KahnLoop.Policy.last ℤ) hnd hsub, length_map,
    checkCycle]
  simp only [hfind]
  refine ⟨?_, fun err herr => ?_⟩
  · rw [ite_error_eq_ok_iff, not_not]
    exact and_iff_left rfl
  · split_ifs at herr
    cases herr
    exact ⟨_, rfl⟩

end

end Cycle

end Checks

/-! ### The ingest -/

theorem truthy_eq_some_iff {x : Option String} {s : String} :
    truthy x = some s ↔ x = some s ∧ s ≠ "" := by
  simp [truthy, Option.filter_eq_some_iff]

variable {doc : Doc} {err : LoadError} {ir : Ir} {reg : Registry} {idx : PyDict ℤ IrOp}
  {ps : List DispatchPlacement}

theorem exists_value_of_checkModel (h : checkModel doc ir = .error err) : ∃ v, err = .value v := by
  rw [checkModel] at h
  split at h
  · split_ifs at h
    cases h
    exact ⟨_, rfl⟩
  · cases h

theorem exists_value_of_checkRegistry (h : checkRegistry doc reg = .error err) :
    ∃ v, err = .value v := by
  rw [checkRegistry] at h
  split at h
  · split_ifs at h
    cases h
    exact ⟨_, rfl⟩
  · cases h

theorem exists_value_of_rawDispatches (h : rawDispatches doc = .error err) :
    ∃ v, err = .value v := by
  rw [rawDispatches] at h
  split at h
  · cases h
    exact ⟨_, rfl⟩
  · split_ifs at h
    cases h
    exact ⟨_, rfl⟩

theorem exists_value_of_checkCoverage (h : checkCoverage idx ps = .error err) :
    ∃ v, err = .value v := by
  simp only [checkCoverage] at h
  split_ifs at h
  cases h
  exact ⟨_, rfl⟩

theorem checkModel_eq_ok_iff :
    checkModel doc ir = .ok () ↔ ∀ m, doc.model = some m → m ≠ "" → ir.name = some m := by
  rw [checkModel]
  split
  next m hm =>
    obtain ⟨hmodel, hne⟩ := truthy_eq_some_iff.mp hm
    simp [hmodel, hne, eq_comm]
  next hm =>
    refine iff_of_true rfl fun m hmodel hne => ?_
    rw [truthy_eq_some_iff.mpr ⟨hmodel, hne⟩] at hm
    cases hm

theorem checkRegistry_eq_ok_iff :
    checkRegistry doc reg = .ok () ↔ ∀ r, doc.registry = some r → r ≠ "" → r = reg.system := by
  rw [checkRegistry]
  split
  next r hr =>
    obtain ⟨hregistry, hne⟩ := truthy_eq_some_iff.mp hr
    simp [hregistry, hne]
  next hr =>
    refine iff_of_true rfl fun r hregistry hne => ?_
    rw [truthy_eq_some_iff.mpr ⟨hregistry, hne⟩] at hr
    cases hr

theorem rawDispatches_eq_ok_iff {raw : List Entry} :
    rawDispatches doc = .ok raw ↔ doc.dispatches = some raw ∧ raw ≠ [] := by
  rw [rawDispatches]
  split
  next h => simp [h]
  next raw' h =>
    rw [ite_error_eq_ok_iff, h]
    constructor
    · rintro ⟨hne, heq⟩
      cases heq
      exact ⟨rfl, hne⟩
    · rintro ⟨heq, hne⟩
      cases heq
      exact ⟨hne, rfl⟩

theorem checkCoverage_eq_ok_iff :
    checkCoverage idx ps = .ok () ↔ idx.keys ⊆ ps.map DispatchPlacement.dispatchId := by
  rw [checkCoverage]
  simp only [ite_error_eq_ok_iff, not_not, filter_eq_nil_iff, decide_eq_true_eq, and_true]
  rfl

/-- What `load` returns for a document: every entry as it places its dispatch, by id, with
dependencies that contain those of the graph. -/
structure Accepted (ir : Ir) (reg : Registry) (doc : Doc) (s : Schedule) : Prop where
  model : s.model = ir.name.getD ""
  registrySystem : s.registrySystem = reg.system
  sorted : s.placements.Pairwise fun p q => p.dispatchId < q.dispatchId
  placed : ∃ raw ps, doc.dispatches = some raw ∧ s.placements.Perm ps ∧
    List.Forall₂ (PlacedAs (irDispatchIndex ir) reg) raw ps
  dependsOn : ∀ p ∈ s.placements, ∃ op, (irDispatchIndex ir).get? p.dispatchId = some op ∧
    op.dependsOn ⊆ p.dependsOn ∧ p.dependsOn ⊆ (irDispatchIndex ir).keys

section Load

variable {ir : Ir} {reg : Registry} {doc : Doc}

/-- `load` succeeds when all its checks do. -/
theorem load_eq_ok_iff {s : Schedule} :
    load doc ir reg = .ok s ↔ checkModel doc ir = .ok () ∧ checkRegistry doc reg = .ok () ∧
      ∃ raw ps, rawDispatches doc = .ok raw ∧ placements (irDispatchIndex ir) reg raw = .ok ps ∧
        checkCoverage (irDispatchIndex ir) ps = .ok () ∧ checkCycle ps = .ok () ∧
        s = ⟨ir.name.getD "", reg.system,
          ps.insertionSort fun a b => a.dispatchId ≤ b.dispatchId⟩ := by
  simp only [load, bind_eq_ok_iff]
  constructor
  · rintro ⟨⟨⟩, hmodel, ⟨⟩, hreg, raw, hraw, ps, hps, ⟨⟩, hcover, ⟨⟩, hcycle, h⟩
    cases h
    exact ⟨hmodel, hreg, raw, ps, hraw, hps, hcover, hcycle, rfl⟩
  · rintro ⟨hmodel, hreg, raw, ps, hraw, hps, hcover, hcycle, rfl⟩
    exact ⟨(), hmodel, (), hreg, raw, hraw, ps, hps, (), hcover, (), hcycle, rfl⟩

variable (hir : ∀ op ∈ ir.ops, op.dependsOn ⊆ (irDispatchIndex ir).keys)

include hir

theorem dependsOn_subset {did : ℤ} {op : IrOp} (h : (irDispatchIndex ir).get? did = some op) :
    op.dependsOn ⊆ (irDispatchIndex ir).keys := by
  obtain ⟨op', hop', heq⟩ := mem_filterMap.mp (PyDict.mem_of_get?_ofList h)
  obtain ⟨did', -, heq⟩ := Option.map_eq_some_iff.mp heq
  cases heq
  exact hir op hop'

/-- An accepted document is valid, and placed as it says. -/
theorem valid_of_load {s : Schedule} (h : load doc ir reg = .ok s) :
    Valid ir reg doc ∧ Accepted ir reg doc s := by
  obtain ⟨hmodel, hreg, raw, ps, hraw, hps, hcover, hcycle, rfl⟩ := load_eq_ok_iff.mp h
  obtain ⟨hdoc, hne⟩ := rawDispatches_eq_ok_iff.mp hraw
  obtain ⟨hplaced, hnd⟩ := placements_eq_ok_iff.mp hps
  have hkeys := checkCoverage_eq_ok_iff.mp hcover
  have hdeps : ∀ p ∈ ps, ∃ op, (irDispatchIndex ir).get? p.dispatchId = some op ∧
      op.dependsOn ⊆ p.dependsOn ∧ p.dependsOn ⊆ (irDispatchIndex ir).keys := by
    intro p hp
    obtain ⟨e, -, he⟩ := exists_of_forall₂_right hplaced hp
    exact he.dependsOn fun did op => dependsOn_subset hir
  have hsub : ∀ p ∈ ps, p.dependsOn ⊆ ps.map DispatchPlacement.dispatchId := fun p hp => by
    obtain ⟨-, -, -, hle⟩ := hdeps p hp
    exact fun d hd => hkeys (hle hd)
  have hids : raw.map Entry.dispatchId = (ps.map DispatchPlacement.dispatchId).map some := by
    clear hps hcover hcycle hdeps hsub hkeys hnd hraw hdoc hne h
    induction hplaced with
    | nil => rfl
    | cons hp _ ih => rw [map_cons, ih, hp.dispatchId]; rfl
  refine ⟨⟨checkModel_eq_ok_iff.mp hmodel, checkRegistry_eq_ok_iff.mp hreg, raw, hdoc, hne,
    fun e he => ?_, ?_, fun did hdid => ?_, ?_⟩, rfl, rfl, ?_, ⟨raw, ps, hdoc, ?_, hplaced⟩,
    fun p hp => ?_⟩
  · obtain ⟨p, -, ⟨did, op, hvalid, -⟩⟩ := exists_of_forall₂_left hplaced he
    exact ⟨did, op, hvalid⟩
  · rw [hids]
    exact hnd.map (Option.some_injective _)
  · rw [hids]
    exact mem_map_of_mem (hkeys hdid)
  · exact ((checkCycle_iff hplaced hnd hsub).1).mp hcycle
  · have htotal : Std.Total fun a b : DispatchPlacement => a.dispatchId ≤ b.dispatchId :=
      ⟨fun a b => le_total _ _⟩
    have hle : (ps.insertionSort fun a b => a.dispatchId ≤ b.dispatchId).Pairwise
        fun a b => a.dispatchId ≤ b.dispatchId := pairwise_insertionSort _ ps
    have hne' : (ps.insertionSort fun a b => a.dispatchId ≤ b.dispatchId).Pairwise
        fun a b => a.dispatchId ≠ b.dispatchId :=
      pairwise_map.mp ((((perm_insertionSort _ ps).map _).nodup_iff).mpr hnd)
    exact (hle.and hne').imp fun ⟨hab, hne⟩ => lt_of_le_of_ne hab hne
  · exact perm_insertionSort _ ps
  · exact hdeps p ((mem_insertionSort _).mp hp)

/-- A valid document is accepted. -/
theorem load_of_valid (h : Valid ir reg doc) : ∃ s, load doc ir reg = .ok s := by
  obtain ⟨raw, hdoc, hne, hentries, hnd, hcover, hacyc⟩ := h.entries
  have hex : ∃ ps, List.Forall₂ (PlacedAs (irDispatchIndex ir) reg) raw ps := by
    clear hdoc hne hnd hcover hacyc
    induction raw with
    | nil => exact ⟨[], .nil⟩
    | cons e raw ih =>
      obtain ⟨did, op, hvalid⟩ := hentries e mem_cons_self
      obtain ⟨ps, hps⟩ := ih fun e' he' => hentries e' (mem_cons_of_mem _ he')
      exact ⟨placement e did op :: ps, .cons ⟨did, op, hvalid, rfl⟩ hps⟩
  obtain ⟨ps, hplaced⟩ := hex
  have hids : raw.map Entry.dispatchId = (ps.map DispatchPlacement.dispatchId).map some := by
    clear hdoc hne hnd hcover hacyc hentries
    induction hplaced with
    | nil => rfl
    | cons hp _ ih => rw [map_cons, ih, hp.dispatchId]; rfl
  have hnd' : (ps.map DispatchPlacement.dispatchId).Nodup := by
    rw [hids] at hnd
    exact hnd.of_map _
  have hkeys : (irDispatchIndex ir).keys ⊆ ps.map DispatchPlacement.dispatchId := by
    intro did hdid
    have hmem := hcover did hdid
    rw [hids, mem_map] at hmem
    obtain ⟨d, hd, heq⟩ := hmem
    exact Option.some.inj heq ▸ hd
  have hsub : ∀ p ∈ ps, p.dependsOn ⊆ ps.map DispatchPlacement.dispatchId := by
    intro p hp
    obtain ⟨e, -, he⟩ := exists_of_forall₂_right hplaced hp
    obtain ⟨op, -, -, hle⟩ := he.dependsOn fun did op => dependsOn_subset hir
    exact fun d hd => hkeys (hle hd)
  exact ⟨_, load_eq_ok_iff.mpr ⟨checkModel_eq_ok_iff.mpr h.model,
    checkRegistry_eq_ok_iff.mpr h.registry, raw, ps, rawDispatches_eq_ok_iff.mpr ⟨hdoc, hne⟩,
    placements_eq_ok_iff.mpr ⟨hplaced, hnd'⟩, checkCoverage_eq_ok_iff.mpr hkeys,
    (checkCycle_iff hplaced hnd' hsub).1.mpr hacyc, rfl⟩⟩

/-- Whatever `load` raises is a `ValueError`. -/
theorem exists_value_of_load {err : LoadError} (h : load doc ir reg = .error err) :
    ∃ v, err = .value v := by
  simp only [load, bind_eq_error_iff] at h
  rcases h with h | ⟨_, -, h | ⟨_, -, h | ⟨raw, -, h | ⟨ps, hps, h | ⟨_, hcover, h | ⟨_, -, h⟩⟩⟩⟩⟩⟩
  · exact exists_value_of_checkModel h
  · exact exists_value_of_checkRegistry h
  · exact exists_value_of_rawDispatches h
  · exact exists_value_of_placements h
  · exact exists_value_of_checkCoverage h
  · obtain ⟨hplaced, hnd⟩ := placements_eq_ok_iff.mp hps
    refine (checkCycle_iff hplaced hnd fun p hp d hd => ?_).2 _ h
    obtain ⟨e, -, he⟩ := exists_of_forall₂_right hplaced hp
    obtain ⟨op, -, -, hle⟩ := he.dependsOn fun did op => dependsOn_subset hir
    exact checkCoverage_eq_ok_iff.mp hcover (hle hd)
  · cases h

/-- `load` accepts the valid documents, places their entries, and raises a `ValueError` for all
others. -/
theorem load_iff : ((∃ s, load doc ir reg = .ok s) ↔ Valid ir reg doc) ∧
    (∀ s, load doc ir reg = .ok s → Accepted ir reg doc s) ∧
    ∀ err, load doc ir reg = .error err → ∃ v, err = .value v :=
  ⟨⟨fun ⟨_, hs⟩ => (valid_of_load hir hs).1, load_of_valid hir⟩,
    fun _ hs => (valid_of_load hir hs).2, fun _ herr => exists_value_of_load hir herr⟩

end Load

/-! ### Examples -/

/-- A graph of two dispatches, the second of which waits for the first. -/
def chainIr : Ir where
  name := some "mlp"
  ops := [⟨some 0, "linear", some "fc0", []⟩, ⟨none, "view", none, []⟩,
    ⟨some 1, "relu", none, [0]⟩]

/-- A registry of one core. -/
def oneCore : Registry where
  system := "spike"
  cores := [⟨"rvv0", "rvv", ["linear", "relu"]⟩]
  byName := PyDict.ofList [("rvv0", ⟨"rvv0", "rvv", ["linear", "relu"]⟩)]
  byKind := PyDict.ofList [("rvv", [⟨"rvv0", "rvv", ["linear", "relu"]⟩])]

/-- A schedule of the graph. -/
def chainDoc : Doc where
  model := some "mlp"
  registry := none
  dispatches := some [⟨some 1, some "rvv0", none, none, none⟩, ⟨some 0, none, some [], none, none⟩]

theorem load_iff_chain : ((∃ s, load chainDoc chainIr oneCore = .ok s) ↔
      Valid chainIr oneCore chainDoc) ∧
    (∀ s, load chainDoc chainIr oneCore = .ok s → Accepted chainIr oneCore chainDoc s) ∧
    ∀ err, load chainDoc chainIr oneCore = .error err → ∃ v, err = .value v :=
  load_iff (by decide)

example : (load chainDoc chainIr oneCore).isOk = true := by decide

/-- The documents that are valid when every name that is given has to match, the entries may be none
and `any` may stand for no core. -/
structure LiterallyValid (ir : Ir) (reg : Registry) (doc : Doc) : Prop where
  model : ∀ m, doc.model = some m → ir.name = some m
  registry : ∀ r, doc.registry = some r → r = reg.system
  entries : ∃ raw, doc.dispatches = some raw ∧
    (∀ e ∈ raw, ∃ did op, e.dispatchId = some did ∧ (irDispatchIndex ir).get? did = some op ∧
      (e.core.getD "any" = "any" ∨
        ∃ c, reg.byName.get? (e.core.getD "any") = some c ∧ op.op ∈ c.capabilities) ∧
      ∀ raw, e.dependsOn = some raw → op.dependsOn ⊆ raw ∧ raw ⊆ (irDispatchIndex ir).keys) ∧
    (raw.map Entry.dispatchId).Nodup ∧
    (∀ did ∈ (irDispatchIndex ir).keys, some did ∈ raw.map Entry.dispatchId) ∧
    EdgeList.Acyclic (ordering (irDispatchIndex ir) raw)

/-- One op that no core of the registry runs. -/
def softmaxIr : Ir := ⟨some "head", [⟨some 0, "softmax", none, []⟩]⟩

/-- An empty list of entries for a graph without dispatches is refused, and so is `any` for an op
that no core runs; a model name that is the empty string is accepted for every model. -/
theorem load_not_literal :
    (LiterallyValid ⟨some "empty", []⟩ oneCore ⟨none, none, some []⟩ ∧
      load ⟨none, none, some []⟩ ⟨some "empty", []⟩ oneCore = .error (.value .noDispatches)) ∧
    (LiterallyValid softmaxIr oneCore ⟨none, none, some [⟨some 0, none, none, none, none⟩]⟩ ∧
      load ⟨none, none, some [⟨some 0, none, none, none, none⟩]⟩ softmaxIr oneCore =
        .error (.value (.incapable 0 "softmax" "any"))) ∧
    (¬LiterallyValid chainIr oneCore { chainDoc with model := some "" } ∧
      (load { chainDoc with model := some "" } chainIr oneCore).isOk = true) := by
  refine ⟨⟨⟨by simp, by simp, [], rfl, by simp, by simp, by decide, ?_⟩, rfl⟩,
    ⟨⟨by simp, by simp, _, rfl, ?_, by decide, by decide, ?_⟩, by decide⟩, ?_, by decide⟩
  · exact EdgeList.acyclic_of_rank (fun _ => (0 : ℕ)) (by simp [ordering])
  · intro e he
    rw [mem_singleton] at he
    subst he
    exact ⟨0, ⟨some 0, "softmax", none, []⟩, rfl, by decide, Or.inl rfl, by simp⟩
  · exact EdgeList.acyclic_of_rank (fun _ => (0 : ℕ)) (by
      simp [ordering, show (irDispatchIndex softmaxIr).get? 0 = some ⟨some 0, "softmax", none, []⟩
        from rfl])
  · intro h
    have := h.model "" rfl
    simp [chainIr] at this

end ModelBlaster.SingleModel

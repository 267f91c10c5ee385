import ModelBlaster.Ingest.Load

/-!
# Which schedules are accepted

The admission of time dependencies drops those that close a cycle, but the resolution of an
entry reads the same field again and refuses a reference that does not point backward. So the
ingest accepts a schedule only if no time dependency had to be dropped.

## Main definitions

* `Loadable`: what the ingest requires of a completed schedule;
* `TimeDepsTreated`: dropped time dependencies are absent from the table, the others point
  strictly backward;
* `ImpliedByIr`: the dependencies of a schedule follow from the networks;
* `Completed`: what the pass makes of a schedule;
* `ActivationsPlaced`: the added activations find their core.

## Main results

* `exists_load_iff`: the ingest returns iff the completed schedule is loadable;
* `load_treats_timeDeps_iff`: when the treatment of time dependencies is as intended;
* `acyclic_dataEdges_of_implied`: dependencies that follow from acyclic networks are acyclic;
* `completion_correct_and_conservative`: the pass completes every named schedule and is
  conservative.
-/

namespace ModelBlaster

open List PyDict

variable {τ : Type}

/-- Every job belongs to a known network that has the dispatch id, and every target
resolves. -/
def Resolvable (irs : PyDict String Ir) (reg : CoreRegistry) (kinds : SlotKinds)
    (raw : RawTable τ) : Prop :=
  Entries (fun _ d =>
    (∃ network instanceNo ir, splitJobName d.jobName irs.keys = .ok (network, instanceNo) ∧
      irs.get? network = some ir ∧ d.id ∈ ir.dispatchIds) ∧
    ∃ label r, d.hardwareTarget = some label ∧ resolveTargets label kinds reg = .ok r) raw

/-- Every time dependency is an entry. -/
def TimeDepsClosed (raw : RawTable τ) : Prop :=
  Entries (fun _ d => ∀ t, truthy d.timeDependency = some t → t ∈ raw.keys) raw

/-- What the ingest requires of a completed schedule. -/
structure Loadable (irs : PyDict String Ir) (reg : CoreRegistry) (kinds : SlotKinds)
    (raw : RawTable τ) : Prop where
  resolvable : Resolvable irs reg kinds raw
  depsClosed : DepsClosed raw
  timeDepsClosed : TimeDepsClosed raw
  /-- Dependencies and time dependencies together close no cycle. -/
  acyclic : EdgeList.Acyclic (dataEdges raw ++ timeEdges raw)

variable [LinearOrder τ] [Zero τ] [Add τ] {env : Env} {doc : Doc τ} {irs : PyDict String Ir}
  {reg : CoreRegistry} {kinds : SlotKinds} {raw : RawTable τ}

private theorem loadable_of_load {T : List (XpurtEntry τ)}
    (hraw : completedTable env doc irs = .ok raw) (h : load env doc irs reg kinds = .ok T) :
    Loadable irs reg kinds raw := by
  obtain ⟨raw', hraw', hall, hlen, hbuilt, -⟩ := builtFrom_of_load h
  rw [hraw] at hraw'
  cases hraw'
  have hperm := perm_sortedKeys hall
  have hentry : ∀ k d, raw.get? k = some d → ∃ e : XpurtEntry τ,
      BuiltFrom raw irs reg kinds (sortedKeys raw) ((sortedKeys raw).idxOf k) k d e := by
    intro k d hd
    have hk : k ∈ sortedKeys raw := hperm.mem_iff.mpr (mem_keys_of_get? hd)
    have hi := idxOf_lt_length_of_mem hk
    obtain ⟨d', hd', hfrom⟩ := hbuilt _ hi (by omega)
    simp only [getElem_idxOf] at hd' hfrom
    rw [hd] at hd'
    cases hd'
    exact ⟨_, hfrom⟩
  refine ⟨fun k d hd => ?_, fun k d hd dep hdep => ?_, fun k d hd t ht => ?_, ?_⟩
  · obtain ⟨e, hfrom⟩ := hentry k d hd
    obtain ⟨ir, op, hsplit, hir, hop, -, -⟩ := hfrom.dispatch
    obtain ⟨label, r, hlabel, hr, -⟩ := hfrom.target
    exact ⟨⟨_, _, ir, hsplit, hir, mem_keys_indexIr.mp (mem_keys_of_get? hop)⟩,
      label, r, hlabel, hr⟩
  · obtain ⟨e, hfrom⟩ := hentry k d hd
    exact hperm.mem_iff.mp (hfrom.deps dep hdep).1
  · obtain ⟨e, hfrom⟩ := hentry k d hd
    rcases hfrom.timeDep with ⟨hnone, -⟩ | ⟨dep, hdep, hmem, -⟩
    · rw [hnone] at ht
      cases ht
    · rw [hdep] at ht
      cases ht
      exact hperm.mem_iff.mp hmem
  · -- both kinds of references point backward in the table
    refine EdgeList.acyclic_of_rank (sortedKeys raw).idxOf fun p c hpc => ?_
    rcases mem_append.mp hpc with hdata | htime
    · obtain ⟨d, hd, hdep, -⟩ := mem_dataEdges.mp hdata
      obtain ⟨e, hfrom⟩ := hentry c d hd
      exact (hfrom.deps p hdep).2
    · obtain ⟨d, hd, hdep, -⟩ := mem_timeEdges.mp htime
      obtain ⟨e, hfrom⟩ := hentry c d hd
      rcases hfrom.timeDep with ⟨hnone, -⟩ | ⟨dep, hdep', -, hlt, -⟩
      · rw [hdep] at hnone
        cases hnone
      · rw [hdep] at hdep'
        cases hdep'
        exact hlt

omit [LinearOrder τ] [Add τ] in
private theorem exists_buildEntry {sorted : List String} {entryId : ℕ} {k : String} {d : RawEntry τ}
    (hres : Resolvable irs reg kinds raw) (hd : raw.get? k = some d)
    (hdeps : ∀ dep ∈ d.dependencies, dep ∈ sorted ∧ sorted.idxOf dep < entryId)
    (htime : ∀ t, truthy d.timeDependency = some t → t ∈ sorted ∧ sorted.idxOf t < entryId) :
    ∃ e, buildEntry raw irs reg kinds sorted entryId k = .ok e := by
  obtain ⟨⟨network, instanceNo, ir, hsplit, hir, hdid⟩, label, r, hlabel, hr⟩ := hres k d hd
  obtain ⟨op, hop⟩ := mem_keys_iff.mp (mem_keys_indexIr.mpr hdid)
  obtain ⟨row, hrow⟩ := mem_keys_iff.mp (mem_keys_remap_indexIr.mpr (mem_keys_of_get? hop))
  obtain ⟨deps, hdeps'⟩ := Fallible.exists_mapM_eq_ok (f := resolveDep sorted entryId k)
    fun dep hdep => ⟨_, resolveDep_eq_ok_iff.mpr ⟨(hdeps dep hdep).1, (hdeps dep hdep).2, rfl⟩⟩
  have htime' : ∃ p, resolveTimeDep sorted entryId k d.timeDependency = .ok p := by
    cases ht : truthy d.timeDependency with
    | none => exact ⟨-1, resolveTimeDep_eq_ok_iff.mpr (Or.inl ⟨ht, rfl⟩)⟩
    | some t => exact ⟨_, resolveTimeDep_eq_ok_iff.mpr
        (Or.inr ⟨t, ht, (htime t ht).1, (htime t ht).2, rfl⟩)⟩
  obtain ⟨p, hp⟩ := htime'
  simp only [buildEntry, hd, Fallible.bind_eq_ok_iff]
  exact ⟨_, _, resolveNetwork_eq_ok_iff.mpr ⟨hsplit, hir⟩, _,
    resolveDispatch_eq_ok_iff.mpr ⟨hop, hrow⟩, r, by simpa [resolveHardware, hlabel] using hr,
    deps, hdeps', p, hp, rfl⟩

private theorem load_of_loadable (hraw : completedTable env doc irs = .ok raw)
    (h : Loadable irs reg kinds raw) : ∃ T, load env doc irs reg kinds = .ok T := by
  have hadm : admission raw = (dataEdges raw ++ timeEdges raw, []) :=
    EdgeList.accept_eq_append h.acyclic
  have hall : (sortedKeys raw).length = raw.keys.length := by
    rw [length_sortedKeys_eq_iff, hadm]
    exact h.acyclic
  have hperm := perm_sortedKeys hall
  have hgreedy := greedy_sortedKeys raw
  have hbuild : ∀ item ∈ (sortedKeys raw).zipIdx,
      ∃ e, buildEntry raw irs reg kinds (sortedKeys raw) item.2 item.1 = .ok e := by
    rintro ⟨k, i⟩ hitem
    obtain ⟨hi, hkey⟩ : ∃ hi : i < (sortedKeys raw).length, k = (sortedKeys raw)[i] :=
      ⟨(mem_zipIdx' hitem).1, (mem_zipIdx' hitem).2⟩
    subst hkey
    have hk := getElem_mem hi
    obtain ⟨d, hd⟩ := mem_keys_iff.mp (hperm.mem_iff.mp hk)
    have hpos : (sortedKeys raw).idxOf (sortedKeys raw)[i] = i := hgreedy.nodup.idxOf_getElem i hi
    -- an admitted edge into the entry comes from a smaller position
    have hback : ∀ dep, (dep, (sortedKeys raw)[i]) ∈ (admission raw).1 →
        dep ∈ sortedKeys raw ∧ (sortedKeys raw).idxOf dep < i := by
      intro dep hdep
      have hlt := hgreedy.idxOf_lt hdep hk
      rw [hpos] at hlt
      exact ⟨hperm.mem_iff.mpr (mem_keys_of_mem_admission hdep).1, hlt⟩
    refine exists_buildEntry h.resolvable hd (fun dep hdep => hback dep ?_)
      fun t ht => hback t ?_
    · rw [hadm]
      exact mem_append_left _ (mem_dataEdges.mpr ⟨d, hd, hdep, h.depsClosed _ d hd dep hdep⟩)
    · rw [hadm]
      exact mem_append_right _ (mem_timeEdges.mpr ⟨d, hd, ht, h.timeDepsClosed _ d hd t ht⟩)
  obtain ⟨entries, hentries⟩ := Fallible.exists_mapM_eq_ok hbuild
  exact ⟨_, load_eq_ok_iff.mpr ⟨raw, hraw, hall, entries, hentries, rfl⟩⟩

/-- The ingest returns iff the completed schedule is loadable. -/
theorem exists_load_iff (hraw : completedTable env doc irs = .ok raw) :
    (∃ T, load env doc irs reg kinds = .ok T) ↔ Loadable irs reg kinds raw :=
  ⟨fun ⟨_, hT⟩ => loadable_of_load hraw hT, load_of_loadable hraw⟩

/-! ### Time dependencies -/

/-- A time dependency that closes a cycle with the edges admitted before it is absent from the
table; every other one points strictly backward. -/
def TimeDepsTreated (raw : RawTable τ) (T : List (XpurtEntry τ)) : Prop :=
  ∀ c ∈ T, ∀ p ∈ T, (∃ d, raw.get? c.scheduleKey = some d ∧
      truthy d.timeDependency = some p.scheduleKey) →
    ((p.scheduleKey, c.scheduleKey) ∈ (admission raw).2 →
      c.timeDepEntryId = -1 ∧ c.entryId ∉ p.fanoutEntryIds) ∧
    ((p.scheduleKey, c.scheduleKey) ∉ (admission raw).2 →
      c.timeDepEntryId = p.entryId ∧ p.entryId < c.entryId)

/-- On a schedule whose data dependencies form a DAG over its entries, whose time dependencies
are entries and whose references resolve, the ingest returns a table that treats the time
dependencies as intended iff the profile guard lets it pass and no time dependency closes a
cycle. -/
theorem load_treats_timeDeps_iff {raw₀ : RawTable τ} (hdoc : doc.dispatches = some raw₀)
    (hne : raw₀.items ≠ []) (hcompl : completion env raw₀ irs = .ok raw)
    (hres : Resolvable irs reg kinds raw) (hdeps : DepsClosed raw)
    (hacyc : EdgeList.Acyclic (dataEdges raw)) (htime : TimeDepsClosed raw) :
    (∃ T, load env doc irs reg kinds = .ok T ∧ TimeDepsTreated raw T) ↔
      pdbCheck env doc = .ok () ∧ EdgeList.Acyclic (dataEdges raw ++ timeEdges raw) := by
  constructor
  · rintro ⟨T, hT, -⟩
    obtain ⟨raw', hraw', -⟩ := load_eq_ok_iff.mp hT
    obtain ⟨raw₁, hdoc', -, hpdb, hcompl'⟩ := completedTable_eq_ok_iff.mp hraw'
    rw [hdoc] at hdoc'
    cases hdoc'
    rw [hcompl] at hcompl'
    cases hcompl'
    exact ⟨hpdb, (loadable_of_load hraw' hT).acyclic⟩
  · rintro ⟨hpdb, hall⟩
    have hraw : completedTable env doc irs = .ok raw :=
      completedTable_eq_ok_iff.mpr ⟨raw₀, hdoc, hne, hpdb, hcompl⟩
    obtain ⟨T, hT⟩ := (exists_load_iff hraw).mpr ⟨hres, hdeps, htime, hall⟩
    have hdropped : (admission raw).2 = [] := (EdgeList.accept_dropped_eq_nil_iff hacyc _).mpr hall
    obtain ⟨-, raw', -, hraw', -, hlin⟩ := load_linearises hT
    rw [hraw] at hraw'
    cases hraw'
    refine ⟨T, hT, fun c hc p hp ⟨d, hd, ht⟩ => ⟨fun hmem => ?_, fun _ => ?_⟩⟩
    · rw [hdropped] at hmem
      cases hmem
    · have hpos : (T.map XpurtEntry.scheduleKey)[p.entryId]? = some p.scheduleKey := by
        rw [getElem?_map, (wellFormed_of_load hT).get_entryId hp]
        rfl
      have heq := (hlin.timeDep c hc d hd p.entryId).mpr ⟨p.scheduleKey, ht, hpos⟩
      have hlt := (hlin.backward c hc).2
      rw [heq] at hlt
      exact ⟨heq, by omega⟩

/-! ### A contradictory time dependency -/

/-- A schedule of one job of the network in which the first op waits for the second. -/
def contradictoryRaw : RawTable ℕ where
  items :=
    [("mlp_dispatch_0", { id := 0, hardwareTarget := some "CPU_P#0", jobName := "mlp"
                          timeDependency := some "mlp_dispatch_1" }),
     ("mlp_dispatch_1", { id := 1, dependencies := ["mlp_dispatch_0"]
                          hardwareTarget := some "CPU_P#0", jobName := "mlp" })]
  nodup := by decide

private theorem contradictory_hyps :
    completion {} contradictoryRaw pairIrs = .ok contradictoryRaw ∧
      Resolvable pairIrs pairRegistry {} contradictoryRaw ∧ DepsClosed contradictoryRaw ∧
      EdgeList.Acyclic (dataEdges contradictoryRaw) ∧ TimeDepsClosed contradictoryRaw := by
  refine ⟨by decide, ?_, ?_, ?_, ?_⟩
  · have hsplit : splitJobName "mlp" pairIrs.keys = .ok ("mlp", 0) := by decide
    have htarget : resolveTargets "CPU_P#0" {} pairRegistry = .ok ⟨"rvv0", "rvv", 1, [1]⟩ := by
      decide
    refine entries_iff.mpr fun item hitem => ?_
    simp only [contradictoryRaw, mem_cons, not_mem_nil, or_false] at hitem
    rcases hitem with rfl | rfl
    · exact ⟨⟨"mlp", 0, pairIr, hsplit, rfl, by decide⟩, "CPU_P#0", _, rfl, htarget⟩
    · exact ⟨⟨"mlp", 0, pairIr, hsplit, rfl, by decide⟩, "CPU_P#0", _, rfl, htarget⟩
  · exact entries_iff.mpr (by decide)
  · refine EdgeList.acyclic_of_rank (fun k => if k = "mlp_dispatch_0" then 0 else 1)
      fun a b hab => ?_
    have hedges : dataEdges contradictoryRaw = [("mlp_dispatch_0", "mlp_dispatch_1")] := by
      decide
    rw [hedges, mem_singleton] at hab
    cases hab
    decide
  · refine entries_iff.mpr fun item hitem t ht => ?_
    simp only [contradictoryRaw, mem_cons, not_mem_nil, or_false] at hitem
    rcases hitem with rfl | rfl
    · have hsome : truthy (some "mlp_dispatch_1") = some "mlp_dispatch_1" := by decide
      cases ht
      decide
    · cases ht

/-- The contradictory schedule meets what is asked of a schedule, and the ingest refuses it. -/
theorem contradictory_refused :
    completion {} contradictoryRaw pairIrs = .ok contradictoryRaw ∧
      Resolvable pairIrs pairRegistry {} contradictoryRaw ∧ DepsClosed contradictoryRaw ∧
      EdgeList.Acyclic (dataEdges contradictoryRaw) ∧ TimeDepsClosed contradictoryRaw ∧
      ¬∃ T, load {} ⟨some contradictoryRaw, none, []⟩ pairIrs pairRegistry {} = .ok T ∧
        TimeDepsTreated contradictoryRaw T := by
  obtain ⟨h₁, h₂, h₃, h₄, h₅⟩ := contradictory_hyps
  refine ⟨h₁, h₂, h₃, h₄, h₅, ?_⟩
  rintro ⟨T, hT, -⟩
  have herr : load {} ⟨some contradictoryRaw, none, []⟩ pairIrs pairRegistry {} =
      .error (.forwardTimeDep "mlp_dispatch_0" 0 "mlp_dispatch_1" 1) := by
    decide
  rw [herr] at hT
  cases hT

/-- The equivalence at the contradictory schedule. -/
theorem load_treats_timeDeps_iff_contradictory :
    (∃ T, load {} ⟨some contradictoryRaw, none, []⟩ pairIrs pairRegistry {} = .ok T ∧
        TimeDepsTreated contradictoryRaw T) ↔
      pdbCheck {} (⟨some contradictoryRaw, none, []⟩ : Doc ℕ) = .ok () ∧
        EdgeList.Acyclic (dataEdges contradictoryRaw ++ timeEdges contradictoryRaw) :=
  load_treats_timeDeps_iff rfl (by decide) contradictory_hyps.1 contradictory_hyps.2.1
    contradictory_hyps.2.2.1 contradictory_hyps.2.2.2.1 contradictory_hyps.2.2.2.2

end ModelBlaster

/-! ## Completion is conservative -/

namespace ModelBlaster

open PyDict

variable {τ : Type}

/-- Every dependency joins two dispatches of one job, along the edges of its network. -/
def ImpliedByIr (irs : PyDict String Ir) (raw : RawTable τ) : Prop :=
  Entries (fun _ d => ∀ dep ∈ d.dependencies, ∃ ir p, jobIr irs d.jobName = some ir ∧
    dep = dispatchKey d.jobName p ∧ Relation.TransGen (IrEdge ir) p d.id) raw

/-- No known network has a dependency cycle. -/
def IrsAcyclic (irs : PyDict String Ir) : Prop :=
  ∀ network ir, irs.get? network = some ir → ∀ d, ¬Relation.TransGen (IrEdge ir) d d

/-- The dispatch ids of every known network are distinct. -/
def IrsDistinct (irs : PyDict String Ir) : Prop :=
  ∀ network ir, irs.get? network = some ir → ir.dispatchIds.Nodup

variable {irs : PyDict String Ir} {job : String} {ir : Ir} {raw : RawTable τ}

/-- The network of a job is a known one. -/
theorem exists_network_of_jobIr (h : jobIr irs job = some ir) :
    ∃ network, irs.get? network = some ir := by
  unfold jobIr at h
  split at h
  next network _ _ => exact ⟨network, h⟩
  next => cases h

/-- Dependencies that follow from acyclic networks are acyclic: a path stays within one job and
follows its network. -/
theorem acyclic_dataEdges_of_implied (hnamed : Named raw) (himplied : ImpliedByIr irs raw)
    (hacyc : IrsAcyclic irs) :
    EdgeList.Acyclic (dataEdges raw) := by
  have hedge : ∀ {a b : String}, EdgeList.Edge (dataEdges raw) a b → ∃ job ir p c,
      jobIr irs job = some ir ∧ a = dispatchKey job p ∧ b = dispatchKey job c ∧
        Relation.TransGen (IrEdge ir) p c := by
    intro a b hab
    obtain ⟨d, hd, hdep, -⟩ := mem_dataEdges.mp hab
    obtain ⟨ir, p, hir, hkey, hpath⟩ := himplied b d hd a hdep
    exact ⟨d.jobName, ir, p, d.id, hir, hkey, hnamed b d hd, hpath⟩
  have hpath : ∀ {a b : String}, Relation.TransGen (EdgeList.Edge (dataEdges raw)) a b →
      ∃ job ir p c, jobIr irs job = some ir ∧ a = dispatchKey job p ∧ b = dispatchKey job c ∧
        Relation.TransGen (IrEdge ir) p c := by
    intro a b hab
    induction hab with
    | single hab => exact hedge hab
    | tail _ hbc ih =>
      obtain ⟨job, ir, p, c, hir, ha, hb, hpc⟩ := ih
      obtain ⟨job', ir', p', c', hir', hb', hc', hpc'⟩ := hedge hbc
      obtain ⟨rfl, rfl⟩ := dispatchKey_inj.mp (hb.symm.trans hb')
      rw [hir] at hir'
      cases hir'
      exact ⟨job, ir, p, c', hir, ha, hc', hpc.trans hpc'⟩
  intro k hk
  obtain ⟨job, ir, p, c, hir, ha, hb, hpc⟩ := hpath hk
  obtain ⟨-, rfl⟩ := dispatchKey_inj.mp (ha.symm.trans hb)
  obtain ⟨network, hnet⟩ := exists_network_of_jobIr hir
  exact hacyc network ir hnet p hpc

variable [LinearOrder τ] [Zero τ] [Add τ]

/-- What the pass makes of the schedule `raw`: entries and dependencies are kept, every dispatch
of the network of a scheduled job is present, and every edge at a dispatch that the schedule
lacked is a dependency. -/
structure Completed (irs : PyDict String Ir) (raw raw' : RawTable τ) : Prop where
  kept : Kept raw raw'
  present : ∀ job ∈ (schedJobs raw).keys, ∀ ir, jobIr irs job = some ir →
    ∀ did ∈ ir.dispatchIds, ∃ d, raw'.get? (dispatchKey job did) = some d ∧
      d.jobName = job ∧ d.id = did
  threaded : ∀ job ∈ (schedJobs raw).keys, ∀ ir, jobIr irs job = some ir →
    ∀ p c, IrEdge ir p c → p ∈ ir.dispatchIds →
      dispatchKey job c ∉ raw.keys ∨ dispatchKey job p ∉ raw.keys →
      ∃ d, raw'.get? (dispatchKey job c) = some d ∧ dispatchKey job p ∈ d.dependencies

/-- The added activations find their core: the slot they are pinned to resolves, or none is
added. -/
def ActivationsPlaced (irs : PyDict String Ir) (reg : CoreRegistry) (kinds : SlotKinds)
    (raw : RawTable τ) : Prop :=
  (∃ r, resolveTargets cpuELabel kinds reg = .ok r) ∨
    ∀ item ∈ (schedJobs raw).items, ∀ ir, jobIr irs item.1 = some ir →
      ∀ did ∈ missingDids (indexIr ir) item.2, ∀ op, (indexIr ir).opByDid.get? did = some op →
        op.op ∉ scalarFpOps

/-- When all entries have targets and the job has an entry, an added entry has the target of an
entry, or the pinned one if it is an activation. -/
theorem hardwareTarget_synthEntry {L : String → Prop} (did : ℤ) (op : Op)
    (hall : Entries (fun _ d => ∃ t, d.hardwareTarget = some t ∧ L t) raw)
    (hjob : ∃ k d, raw.get? k = some d ∧ d.jobName = job) :
    ∃ t, (synthEntry raw job did op).hardwareTarget = some t ∧
      (L t ∨ (t = cpuELabel ∧ op.op ∈ scalarFpOps)) := by
  refine ⟨_, rfl, ?_⟩
  unfold synthTarget
  split_ifs with hscalar
  · exact Or.inr ⟨rfl, hscalar⟩
  · left
    have hinherit : ∃ t, (inheritTarget raw job (presentProducers raw job op.dependsOn)).1 =
        some t ∧ L t := by
      unfold inheritTarget
      split
      next t ht =>
        obtain ⟨⟨k, d⟩, hmem, htarget⟩ := List.exists_of_findSome?_eq_some ht
        obtain ⟨p, -, -, hget⟩ := mem_presentProducers.mp hmem
        obtain ⟨t', ht', hL⟩ := hall k d hget
        have heq : t' = t := Option.some.inj (ht'.symm.trans htarget)
        exact ⟨t, rfl, heq ▸ hL⟩
      next =>
        obtain ⟨k, d, hget, hname⟩ := hjob
        have hfirst : ∃ d', firstOfJob raw job = some d' := by
          rw [← Option.isSome_iff_exists, firstOfJob, Option.isSome_map, List.find?_isSome]
          exact ⟨(k, d), mem_items_iff.mpr hget, by simpa using hname⟩
        obtain ⟨d', hd'⟩ := hfirst
        rw [hd']
        obtain ⟨⟨k', d''⟩, hfind, rfl⟩ := Option.map_eq_some_iff.mp hd'
        exact hall k' d'' (mem_items_iff.mp (List.mem_of_find?_eq_some hfind))
    obtain ⟨t, ht, hL⟩ := hinherit
    rw [ht]
    exact hL

section Pass

variable {irs : PyDict String Ir} {reg : CoreRegistry} {kinds : SlotKinds}
  {raw raw' : RawTable τ}

/-- The pass keeps the naming of entries. -/
theorem named_complete (hnamed : Named raw) (h : complete raw irs = .ok raw') : Named raw' := by
  refine complete_induction hnamed h hnamed ?_ ?_
  · intro job ids ir _ _ cur did op _ _ _ hI
    exact hI.set rfl
  · intro job ids ir _ _ cur op cdid consumer _ _ hget _ hI
    exact hI.set (hI (dispatchKey job cdid) consumer hget)

/-- The pass completes a named schedule. -/
theorem completed_complete (hids : IrsDistinct irs) (hnamed : Named raw)
    (h : complete raw irs = .ok raw') : Completed irs raw raw' := by
  refine ⟨kept_complete hnamed h, fun job hjob ir hir did hdid => ?_,
    fun job hjob ir hir p c hedge hp hmissing => ?_⟩
  · obtain ⟨d, hd⟩ := mem_keys_iff.mp (mem_keys_of_complete hnamed h hjob hir hdid)
    exact ⟨d, hd, (named_complete hnamed h).of_get? hd⟩
  · obtain ⟨op, hop, hc, hpdep⟩ := hedge
    obtain ⟨network, hnet⟩ := exists_network_of_jobIr hir
    exact mem_dependencies_of_complete hnamed h hjob hir (hids network ir hnet) hop hc hpdep hp
      hmissing

/-- The pass keeps that dependencies are entries. -/
theorem depsClosed_complete (hnamed : Named raw) (hclosed : DepsClosed raw)
    (h : complete raw irs = .ok raw') : DepsClosed raw' := by
  refine complete_induction hnamed h hclosed ?_ ?_
  · intro job ids ir _ _ cur did op _ _ _ hI k d hd dep hdep
    rw [get?_set] at hd
    rw [mem_keys_set]
    split_ifs at hd
    · cases hd
      obtain ⟨p, -, -, hmem⟩ := mem_dependencies_synthEntry.mp hdep
      exact Or.inr hmem
    · exact Or.inr (hI k d hd dep hdep)
  · intro job ids ir _ _ cur op cdid consumer _ _ hget hpresent hI k d hd dep hdep
    rw [get?_set] at hd
    rw [mem_keys_set]
    split_ifs at hd
    · cases hd
      rcases mem_threadDeps.mp hdep with hold | ⟨p, -, hp, rfl⟩
      · exact Or.inr (hI _ _ hget dep hold)
      · exact Or.inr (hpresent p hp)
    · exact Or.inr (hI k d hd dep hdep)

/-- The pass keeps that dependencies follow from the networks. -/
theorem impliedByIr_complete (hnamed : Named raw) (himplied : ImpliedByIr irs raw)
    (h : complete raw irs = .ok raw') : ImpliedByIr irs raw' := by
  have hI : Named raw' ∧ ImpliedByIr irs raw' := by
    refine complete_induction (I := fun cur => Named cur ∧ ImpliedByIr irs cur) hnamed h
      ⟨hnamed, himplied⟩ ?_ ?_
    · rintro job ids ir - hir cur did op - hop - ⟨hname, hI⟩
      refine ⟨hname.set rfl, hI.set fun dep hdep => ?_⟩
      obtain ⟨p, hp, rfl, -⟩ := mem_dependencies_synthEntry.mp hdep
      obtain ⟨hmem, hid⟩ := exists_op_of_get? hop
      exact ⟨ir, p, hir, rfl, .single ⟨op, hmem, hid, hp⟩⟩
    · rintro job ids ir - hir cur op cdid consumer hop hid hget - ⟨hname, hI⟩
      obtain ⟨hjob, hcid⟩ := hname.of_get? hget
      refine ⟨hname.set (hname (dispatchKey job cdid) consumer hget), hI.set fun dep hdep => ?_⟩
      rcases mem_threadDeps.mp hdep with hold | ⟨p, hp, -, rfl⟩
      · exact hI _ _ hget dep hold
      · exact ⟨ir, p, hjob ▸ hir, by rw [hjob], .single ⟨op, hop, hcid ▸ hid, hp⟩⟩
  exact hI.2

/-- The pass keeps that time dependencies are entries. -/
theorem timeDepsClosed_complete (hnamed : Named raw) (hclosed : TimeDepsClosed raw)
    (h : complete raw irs = .ok raw') : TimeDepsClosed raw' := by
  refine complete_induction hnamed h hclosed ?_ ?_
  · intro job ids ir _ _ cur did op _ _ _ hI k d hd t ht
    rw [get?_set] at hd
    rw [mem_keys_set]
    split_ifs at hd
    · cases hd
      cases ht
    · exact Or.inr (hI k d hd t ht)
  · intro job ids ir _ _ cur op cdid consumer _ _ hget _ hI k d hd t ht
    rw [get?_set] at hd
    rw [mem_keys_set]
    split_ifs at hd
    · cases hd
      exact Or.inr (hI _ _ hget t ht)
    · exact Or.inr (hI k d hd t ht)

/-- The pass keeps that all references resolve, when the added activations find their core. -/
theorem resolvable_complete (hnamed : Named raw) (hres : Resolvable irs reg kinds raw)
    (hplaced : ActivationsPlaced irs reg kinds raw) (h : complete raw irs = .ok raw') :
    Resolvable irs reg kinds raw' := by
  have hI : Kept raw raw' ∧ Resolvable irs reg kinds raw' := by
    refine complete_induction (I := fun cur => Kept raw cur ∧ Resolvable irs reg kinds cur) hnamed h
      ⟨Kept.refl raw, hres⟩ ?_ ?_
    · rintro job ids ir hitem hir cur did op hmissing hop hfree ⟨hkept, hI⟩
      have hstep : Kept cur (cur.set (dispatchKey job did) (synthEntry cur job did op)) := by
        rw [← synthesize_of_get? hop]
        exact kept_synthesize hfree
      refine ⟨hkept.trans hstep, hI.set ⟨?_, ?_⟩⟩
      · -- the network of the job has the missing dispatch
        obtain ⟨k, d, hget, hname⟩ :=
          mem_keys_schedJobs.mp (List.mem_map.mpr ⟨(job, ids), hitem, rfl⟩)
        obtain ⟨⟨network, instanceNo, ir', hsplit, hir', -⟩, -⟩ := hres k d hget
        rw [hname] at hsplit
        simp only [jobIr, hsplit, hir', Option.some.injEq] at hir
        subst hir
        exact ⟨network, instanceNo, ir', hsplit, hir', (mem_missingDids.mp hmissing).1⟩
      · have hjob : ∃ k d, cur.get? k = some d ∧ d.jobName = job := by
          obtain ⟨k, d, hget, hname⟩ :=
            mem_keys_schedJobs.mp (List.mem_map.mpr ⟨(job, ids), hitem, rfl⟩)
          obtain ⟨deps, hget', -⟩ := hkept k d hget
          exact ⟨k, _, hget', hname⟩
        have htargets : Entries (fun _ d => ∃ t, d.hardwareTarget = some t ∧
            ∃ r, resolveTargets t kinds reg = .ok r) cur := by
          intro k d hget
          obtain ⟨-, label, r, hlabel, hr⟩ := hI k d hget
          exact ⟨label, hlabel, r, hr⟩
        obtain ⟨t, ht, htarget⟩ := hardwareTarget_synthEntry did op htargets hjob
        rcases htarget with ⟨r, hr⟩ | ⟨rfl, hscalar⟩
        · exact ⟨t, r, ht, hr⟩
        · rcases hplaced with ⟨r, hr⟩ | hnone
          · exact ⟨cpuELabel, r, ht, hr⟩
          · exact absurd hscalar (hnone (job, ids) hitem ir hir did hmissing op hop)
    · rintro job ids ir - - cur op cdid consumer - hid hget - ⟨hkept, hI⟩
      refine ⟨hkept.trans fun k d hd => ?_,
        hI.set (hI (dispatchKey job cdid) consumer hget)⟩
      rw [get?_set]
      split_ifs with heq
      · subst heq
        rw [hget] at hd
        cases hd
        exact ⟨_, rfl, prefix_threadDeps _ _ _ _⟩
      · exact ⟨d.dependencies, hd, List.prefix_rfl⟩
  exact hI.2

end Pass

/-- The pass completes every named schedule. A named schedule that follows from acyclic networks
and is accepted without the pass is accepted with it, when the added activations find their core
and no time dependency closes a cycle with the completed dependencies. -/
theorem completion_correct_and_conservative {irs : PyDict String Ir} {reg : CoreRegistry}
    {kinds : SlotKinds} {env : Env} {doc : Doc τ} {raw : RawTable τ}
    (hdoc : doc.dispatches = some raw) (hnamed : Named raw) (hids : IrsDistinct irs) :
    (∀ raw', complete raw irs = .ok raw' → Completed irs raw raw') ∧
      ((∃ T, load { env with skipIrCompletion := true } doc irs reg kinds = .ok T) →
        ImpliedByIr irs raw → IrsAcyclic irs → ActivationsPlaced irs reg kinds raw →
        (∀ raw', complete raw irs = .ok raw' → (admission raw').2 = []) →
        ∃ T, load { env with skipIrCompletion := false } doc irs reg kinds = .ok T) := by
  refine ⟨fun raw' h => completed_complete hids hnamed h, ?_⟩
  rintro ⟨T, hT⟩ himplied hacyc hplaced htimes
  obtain ⟨raw₁, hraw₁, -⟩ := load_eq_ok_iff.mp hT
  obtain ⟨raw₀, hdoc', hne, hpdb, hskip⟩ := completedTable_eq_ok_iff.mp hraw₁
  rw [hdoc] at hdoc'
  cases hdoc'
  have heq : raw₁ = raw := by
    rw [completion, if_pos rfl] at hskip
    cases hskip
    rfl
  subst heq
  have hload := (exists_load_iff hraw₁).mp ⟨T, hT⟩
  obtain ⟨raw', hraw'⟩ := exists_complete_iff.mpr fun k d hget => by
    obtain ⟨⟨network, instanceNo, -, hsplit, -⟩, -⟩ := hload.resolvable k d hget
    exact ⟨_, hsplit⟩
  have hcompl : completedTable { env with skipIrCompletion := false } doc irs = .ok raw' := by
    refine completedTable_eq_ok_iff.mpr ⟨raw₁, hdoc, hne, hpdb, ?_⟩
    rw [completion, if_neg (by simp)]
    exact hraw'
  have hdata : EdgeList.Acyclic (dataEdges raw') :=
    acyclic_dataEdges_of_implied (named_complete hnamed hraw')
      (impliedByIr_complete hnamed himplied hraw') hacyc
  exact (exists_load_iff hcompl).mpr ⟨resolvable_complete hnamed hload.resolvable hplaced hraw',
      depsClosed_complete hnamed hload.depsClosed hraw',
      timeDepsClosed_complete hnamed hload.timeDepsClosed hraw',
      (EdgeList.accept_dropped_eq_nil_iff hdata _).mp (htimes raw' hraw')⟩

/-! ### A schedule without its activation -/

/-- The schedule without the activation, completed. -/
def headCompleted : RawTable ℕ where
  items :=
    [("mlp_dispatch_0", { id := 0, hardwareTarget := some "CPU_P#0", duration := some 5
                          jobName := "mlp" }),
     ("mlp_dispatch_1", { id := 1, dependencies := ["mlp_dispatch_0"]
                          hardwareTarget := some "CPU_E#0", startTime := some 5
                          duration := some 0, jobName := "mlp" })]
  nodup := by decide

private theorem named_head : Named headRaw := entries_iff.mpr (by decide)

private theorem implied_head : ImpliedByIr pairIrs headRaw := by
  refine entries_iff.mpr fun item hitem dep hdep => ?_
  simp only [headRaw, List.mem_singleton] at hitem
  subst hitem
  cases hdep

private theorem eq_pairIr {network : String} (h : pairIrs.get? network = some ir) :
    ir = pairIr := by
  have hmem := mem_items_iff.mpr h
  simp only [pairIrs, List.mem_singleton, Prod.mk.injEq] at hmem
  exact hmem.2

private theorem acyclic_pair : IrsAcyclic pairIrs := by
  intro network ir hir d hd
  rw [eq_pairIr hir] at hd
  have hedge : ∀ {p c : ℤ}, IrEdge pairIr p c → p = 0 ∧ c = 1 := by
    rintro p c ⟨op, hop, hc, hp⟩
    simp only [pairIr, List.mem_cons, List.not_mem_nil, or_false] at hop
    rcases hop with rfl | rfl
    · cases hp
    · exact ⟨List.mem_singleton.mp hp, (Option.some.inj hc).symm⟩
  have hpath : ∀ {p c : ℤ}, Relation.TransGen (IrEdge pairIr) p c → p = 0 ∧ c = 1 := by
    intro p c h
    induction h with
    | single h => exact hedge h
    | tail _ h ih => exact ⟨ih.1, (hedge h).2⟩
  have := hpath hd
  omega

private theorem distinct_pair : IrsDistinct pairIrs := by
  intro network ir hir
  rw [eq_pairIr hir]
  decide

/-- Without a scalar core the ingest accepts the schedule as it is and refuses it completed. -/
theorem head_refused_without_scalar_core :
    Named headRaw ∧ ImpliedByIr pairIrs headRaw ∧ IrsAcyclic pairIrs ∧
      (∃ T, load { skipIrCompletion := true } ⟨some headRaw, none, []⟩ pairIrs
        ⟨"vector", [⟨"rvv0", "rvv", [1]⟩]⟩ {} = .ok T) ∧
      ¬∃ T, load {} ⟨some headRaw, none, []⟩ pairIrs ⟨"vector", [⟨"rvv0", "rvv", [1]⟩]⟩ {} =
        .ok T := by
  refine ⟨named_head, implied_head, acyclic_pair, ⟨headTable.take 1 |>.map fun e =>
    { e with fanoutEntryIds := [] }, by decide⟩, ?_⟩
  rintro ⟨T, hT⟩
  have herr : load {} ⟨some headRaw, none, []⟩ pairIrs ⟨"vector", [⟨"rvv0", "rvv", [1]⟩]⟩ {} =
      .error (.noCoresOfKind "vector" "scalar" "CPU_E#0") := by
    decide
  rw [herr] at hT
  cases hT

/-- With a scalar core the schedule is completed and accepted. -/
theorem completion_conservative_head :
    Completed pairIrs headRaw headCompleted ∧
      ∃ T, load {} ⟨some headRaw, none, []⟩ pairIrs pairRegistry {} = .ok T := by
  have hcompl : complete headRaw pairIrs = .ok headCompleted := by decide
  have hmain := @completion_correct_and_conservative ℕ _ _ _ pairIrs pairRegistry {} {}
    ⟨some headRaw, none, []⟩ headRaw rfl named_head distinct_pair
  refine ⟨hmain.1 headCompleted hcompl, hmain.2 ⟨headTable.take 1 |>.map fun e =>
    { e with fanoutEntryIds := [] }, by decide⟩ implied_head acyclic_pair
    (Or.inl ⟨⟨"rocket0", "scalar", 0, [0]⟩, by decide⟩) fun raw' hraw' => ?_⟩
  rw [hcompl] at hraw'
  cases hraw'
  decide

end ModelBlaster

import ModelBlaster.Ingest.Load
import ModelBlaster.Skeleton.DispatchTable

/-!
# Completion slots

At run time, an entry with a kernel counts towards a slot: its network, its instance and its
row in the dispatch function table. Job names and dispatch ids of a schedule may be such that two
entries share a slot.

## Main definitions

* `HasRow`: a dispatch id stands for a kernel;
* `SlotsDistinct`: no two keys of a schedule stand for one kernel of one instance.

## Main results

* `fromSchedule_complete`: where the entries behind the completion pass come from;
* `eq_of_slot_eq`: in the table of such a schedule no two entries share a slot;
* `dispatchId_lt_opCount`: the rows that a table refers to are counted by `opCount`.
-/

namespace ModelBlaster

variable {τ : Type} {irs : PyDict String Ir}

/-- The dispatch id stands for a kernel, by the ingest's numbering. -/
def HasRow (ir : Ir) (did : ℤ) : Prop := ∃ row, (indexIr ir).remap.get? did = some row ∧ 0 ≤ row

/-- The entry belongs to this instance of this network. -/
def RawEntry.StandsFor (d : RawEntry τ) (irs : PyDict String Ir) (network : String)
    (instanceNo : ℤ) (ir : Ir) : Prop :=
  splitJobName d.jobName irs.keys = .ok (network, instanceNo) ∧ irs.get? network = some ir

/-- No two keys of the schedule stand for one kernel of one instance, and no two jobs for one
instance of a network with kernels. -/
structure SlotsDistinct (irs : PyDict String Ir) (raw : RawTable τ) : Prop where
  /-- Jobs of one instance have one name, unless there is nothing to run. -/
  jobs : ∀ k₁ k₂ d₁ d₂ network instanceNo ir, raw.get? k₁ = some d₁ → raw.get? k₂ = some d₂ →
    d₁.StandsFor irs network instanceNo ir → d₂.StandsFor irs network instanceNo ir →
    (∃ did, HasRow ir did) → d₁.jobName = d₂.jobName
  /-- A job lists a kernel under one key only. -/
  ids : ∀ k₁ k₂ d₁ d₂ network instanceNo ir, raw.get? k₁ = some d₁ → raw.get? k₂ = some d₂ →
    d₁.StandsFor irs network instanceNo ir → HasRow ir d₁.id → d₁.jobName = d₂.jobName →
    d₁.id = d₂.id → k₁ = k₂

/-! ### Behind the completion pass -/

/-- An entry behind the completion pass has the job and the id of the schedule's entry under its
key, or stands for an id that its job lacks in the schedule. -/
def FromSchedule (raw : RawTable τ) (k : String) (d : RawEntry τ) : Prop :=
  (∃ d₀, raw.get? k = some d₀ ∧ d₀.jobName = d.jobName ∧ d₀.id = d.id) ∨
    (k = dispatchKey d.jobName d.id ∧ (∃ k₀ d₀, raw.get? k₀ = some d₀ ∧ d₀.jobName = d.jobName) ∧
      ∀ k₀ d₀, raw.get? k₀ = some d₀ → d₀.jobName = d.jobName → d₀.id ≠ d.id)

variable [LinearOrder τ] [Zero τ] [Add τ] {raw raw' : RawTable τ} {ir : Ir} {e : XpurtEntry τ}
  {i : ℕ}

/-- Completing one job. -/
private theorem fromSchedule_completeJob {job : String} {scheduled : List ℤ}
    (hitem : (job, scheduled) ∈ (schedJobs raw).items) (h : Entries (FromSchedule raw) raw') :
    Entries (FromSchedule raw) (completeJob ir job scheduled raw') := by
  have hjob : ∃ k₀ d₀, raw.get? k₀ = some d₀ ∧ d₀.jobName = job :=
    mem_keys_schedJobs.mp (PyDict.mem_keys_of_get? (PyDict.mem_items_iff.mp hitem))
  have hsynth : ∀ (dids : List ℤ) (raw₁ : RawTable τ), (∀ did ∈ dids, did ∉ scheduled) →
      Entries (FromSchedule raw) raw₁ →
      Entries (FromSchedule raw) (dids.foldl (synthesize (indexIr ir) job) raw₁) := by
    intro dids
    induction dids with
    | nil => exact fun _ _ h => h
    | cons did rest ih =>
      intro raw₁ hmissing h₁
      refine ih _ (fun d hd => hmissing d (List.mem_cons_of_mem _ hd)) ?_
      unfold synthesize
      split
      next => exact h₁
      next op _ =>
        refine h₁.set (Or.inr ⟨rfl, hjob, fun k₀ d₀ hget hname hid => ?_⟩)
        exact hmissing did List.mem_cons_self ((mem_schedJobs hitem).mpr ⟨k₀, d₀, hget, hname, hid⟩)
  have hthread : ∀ (dids : List ℤ) (ops : List Op) (raw₁ : RawTable τ),
      Entries (FromSchedule raw) raw₁ →
      Entries (FromSchedule raw) (ops.foldl (threadOp job dids) raw₁) := by
    intro dids ops
    induction ops with
    | nil => exact fun _ h => h
    | cons op rest ih => exact fun raw₁ h₁ => ih _ (h₁.threadOp fun _ _ _ _ hP => hP)
  unfold completeJob
  simp only
  split_ifs with hnone
  · exact h
  · exact hthread _ _ _ (hsynth _ _ (fun did hdid => (mem_missingDids.mp hdid).2) h)

/-- Where the entries behind the completion pass come from. -/
theorem fromSchedule_complete (h : complete raw irs = .ok raw') :
    Entries (FromSchedule raw) raw' := by
  obtain ⟨jobNet, -, rfl⟩ := complete_eq_ok_iff.mp h
  have hfold : ∀ (items : List (String × List ℤ)) (raw₁ : RawTable τ),
      (∀ item ∈ items, item ∈ (schedJobs raw).items) → Entries (FromSchedule raw) raw₁ →
      Entries (FromSchedule raw) (items.foldl (passJob jobNet) raw₁) := by
    intro items
    induction items with
    | nil => exact fun _ _ h => h
    | cons item rest ih =>
      intro raw₁ hitems h₁
      refine ih _ (fun i hi => hitems i (List.mem_cons_of_mem _ hi)) ?_
      unfold passJob
      split
      next => exact h₁
      next ir _ => exact fromSchedule_completeJob (hitems item List.mem_cons_self) h₁
  exact hfold _ raw (fun _ hi => hi) fun k d hget => Or.inl ⟨d, hget, rfl, rfl⟩

/-- The entries of the sorted schedule come from the schedule. -/
theorem fromSchedule_completedTable {env : Env} {doc : Doc τ} (hdoc : doc.dispatches = some raw)
    (h : completedTable env doc irs = .ok raw') : Entries (FromSchedule raw) raw' := by
  obtain ⟨raw₀, hraw, -, -, hcomp⟩ := completedTable_eq_ok_iff.mp h
  rw [hdoc] at hraw
  cases hraw
  unfold completion at hcomp
  split_ifs at hcomp
  · cases hcomp
    exact fun k d hget => Or.inl ⟨d, hget, rfl, rfl⟩
  · exact fromSchedule_complete hcomp

omit [LinearOrder τ] [Zero τ] [Add τ] in
/-- Behind the pass, no two keys stand for one kernel of one instance. -/
private theorem eq_of_kernel_eq (hslots : SlotsDistinct irs raw)
    (h : Entries (FromSchedule raw) raw') {k₁ k₂ : String} {d₁ d₂ : RawEntry τ}
    (hd₁ : raw'.get? k₁ = some d₁) (hd₂ : raw'.get? k₂ = some d₂) {network : String}
    {instanceNo : ℤ} (hs₁ : d₁.StandsFor irs network instanceNo ir)
    (hs₂ : d₂.StandsFor irs network instanceNo ir) (hid : d₁.id = d₂.id) (hrow : HasRow ir d₁.id) :
    k₁ = k₂ := by
  -- Every job behind the pass is one of the schedule.
  have hjob : ∀ k d, raw'.get? k = some d →
      ∃ k₀ d₀, raw.get? k₀ = some d₀ ∧ d₀.jobName = d.jobName := by
    intro k d hd
    rcases h k d hd with ⟨d₀, hd₀, hname, -⟩ | ⟨-, hsched, -⟩
    · exact ⟨k, d₀, hd₀, hname⟩
    · exact hsched
  have hsame : d₁.jobName = d₂.jobName := by
    obtain ⟨l₁, c₁, hc₁, hn₁⟩ := hjob k₁ d₁ hd₁
    obtain ⟨l₂, c₂, hc₂, hn₂⟩ := hjob k₂ d₂ hd₂
    rw [← hn₁, ← hn₂]
    refine hslots.jobs l₁ l₂ c₁ c₂ network instanceNo ir hc₁ hc₂ ?_ ?_ ⟨_, hrow⟩
    · exact ⟨by rw [hn₁]; exact hs₁.1, hs₁.2⟩
    · exact ⟨by rw [hn₂]; exact hs₂.1, hs₂.2⟩
  rcases h k₁ d₁ hd₁ with ⟨c₁, hc₁, hn₁, hi₁⟩ | ⟨hk₁, -, hnew₁⟩
  · rcases h k₂ d₂ hd₂ with ⟨c₂, hc₂, hn₂, hi₂⟩ | ⟨-, -, hnew₂⟩
    · refine hslots.ids k₁ k₂ c₁ c₂ network instanceNo ir hc₁ hc₂ ?_ (by rwa [hi₁]) ?_ ?_
      · exact ⟨by rw [hn₁]; exact hs₁.1, hs₁.2⟩
      · rw [hn₁, hn₂, hsame]
      · rw [hi₁, hi₂, hid]
    · exact absurd (hi₁.trans hid) (hnew₂ k₁ c₁ hc₁ (hn₁.trans hsame))
  · rcases h k₂ d₂ hd₂ with ⟨c₂, hc₂, hn₂, hi₂⟩ | ⟨hk₂, -, -⟩
    · exact absurd (hi₂.trans hid.symm) (hnew₁ k₂ c₂ hc₂ (hn₂.trans hsame.symm))
    · rw [hk₁, hk₂, hsame, hid]

/-! ### In the table -/

variable {env : Env} {doc : Doc τ} {reg : CoreRegistry} {slots : SlotKinds}
  {T : List (XpurtEntry τ)}

/-- The entry of the schedule behind an entry of the table. -/
private theorem exists_standsFor (h : load env doc irs reg slots = .ok T) (he : T[i]? = some e) :
    ∃ raw' d ir, completedTable env doc irs = .ok raw' ∧ raw'.get? e.scheduleKey = some d ∧
      d.StandsFor irs e.network e.instanceNo ir ∧
      (indexIr ir).remap.get? d.id = some e.dispatchId := by
  obtain ⟨raw', hraw, -, hlen, hbuilt, -⟩ := builtFrom_of_load h
  obtain ⟨hi, rfl⟩ := List.getElem?_eq_some_iff.mp he
  obtain ⟨d, hd, hfrom⟩ := hbuilt i (hlen ▸ hi) hi
  obtain ⟨ir, op, hsplit, hir, -, hrow, -⟩ := hfrom.dispatch
  exact ⟨raw', d, ir, hraw, by rw [hfrom.scheduleKey_eq]; exact hd, ⟨hsplit, hir⟩, hrow⟩

/-- In the table of a schedule with distinct slots, no two entries with a kernel share one. -/
theorem eq_of_slot_eq (h : load env doc irs reg slots = .ok T) (hdoc : doc.dispatches = some raw)
    (hslots : SlotsDistinct irs raw) {j : ℕ} {a b : XpurtEntry τ} (ha : T[i]? = some a)
    (hb : T[j]? = some b) (hnetwork : a.network = b.network)
    (hinstance : a.instanceNo = b.instanceNo) (hdispatch : a.dispatchId = b.dispatchId)
    (hkernel : 0 ≤ a.dispatchId) : i = j := by
  obtain ⟨raw', d₁, ir, hraw, hd₁, hs₁, hrow₁⟩ := exists_standsFor h ha
  obtain ⟨raw'', d₂, ir', hraw', hd₂, hs₂, hrow₂⟩ := exists_standsFor h hb
  rw [hraw] at hraw'
  cases hraw'
  rw [← hnetwork, ← hinstance] at hs₂
  have hir : ir' = ir := Option.some.inj (hs₂.2.symm.trans hs₁.2)
  rw [hir, ← hdispatch] at hrow₂
  rw [hir] at hs₂
  have hid : d₁.id = d₂.id := (rows_indexIr ir).row_inj _ _ _ hrow₁ hrow₂ hkernel
  have hkey := eq_of_kernel_eq hslots (fromSchedule_completedTable hdoc hraw) hd₁ hd₂ hs₁ hs₂ hid
    ⟨_, hrow₁, hkernel⟩
  -- Keys are placed once.
  have hnodup : (T.map XpurtEntry.scheduleKey).Nodup := by
    obtain ⟨raw₁, -, hplaced, hlen, hbuilt, -⟩ := builtFrom_of_load h
    rw [map_scheduleKey_of_load hlen hbuilt, (perm_sortedKeys hplaced).nodup_iff]
    exact raw₁.keys_nodup
  have hi : i < (T.map XpurtEntry.scheduleKey).length := by
    rw [List.length_map]
    exact (List.getElem?_eq_some_iff.mp ha).1
  apply (List.getElem?_inj hi hnodup).mp
  rw [List.getElem?_map, List.getElem?_map, ha, hb]
  exact congrArg some hkey

/-- The kinds with a row that `opCount` leaves out. -/
def uncountedKinds : List String := ["chunk2_c1_f16", "chunk2_c1_s8"]

/-- Without an op of these kinds, `opCount` counts every op with a row. -/
theorem countP_rowed_le_opCount (h : ∀ op ∈ ir.ops, op.op ∉ uncountedKinds) :
    ir.ops.countP (fun op => op.Rowed) ≤ opCount ir := by
  refine List.countP_mono_left fun op hop hrowed => ?_
  have hkinds : ∀ k ∈ skeletonZeroCostOps, k ∈ zeroCostOps ∨ k ∈ uncountedKinds := by
    decide
  rw [decide_eq_true_eq] at hrowed ⊢
  intro hmem
  rcases hkinds _ hmem with hzero | hun
  · exact hrowed.2 hzero
  · exact h op hop hun

/-- The rows that a table refers to are counted by `opCount`. -/
theorem dispatchId_lt_opCount (h : load env doc irs reg slots = .ok T) (he : T[i]? = some e)
    (hir : irs.get? e.network = some ir) (hkinds : ∀ op ∈ ir.ops, op.op ∉ uncountedKinds) :
    e.dispatchId < opCount ir := by
  obtain ⟨raw', d, ir', -, -, hs, hrow⟩ := exists_standsFor h he
  have heq : ir' = ir := Option.some.inj (hs.2.symm.trans hir)
  rw [heq] at hrow
  have hlt := (rows_indexIr ir).row_lt _ _ hrow
  rw [(rows_indexIr ir).next_eq] at hlt
  have hle := countP_rowed_le_opCount hkinds
  omega

end ModelBlaster

import ModelBlaster.Ingest.Order

/-!
# IR completion

The scheduler drops ops that cost nothing. The completion pass adds an entry for every
dispatch of the network that a scheduled job lacks, then makes the consumers of the added
entries depend on them.

## Main definitions

* `IrIndex`: the two dictionaries and the row counter;
* `indexIr`: the loop over the ops;
* `synthesize`: the entry for a missing dispatch;
* `threadOp`: the dependencies of one consumer;
* `completeJob` and `complete`: the pass for one job and for the schedule;
* `Kept`: the entries of one schedule are in another, up to further dependencies;
* `Named`: every key is made of the entry's job and dispatch id;
* `Scheduled`: the dispatches that a schedule has of a job.

## Main results

* `mem_keys_indexIr`: the indexed ids are the dispatch ids of the network;
* `exists_op_of_get?`: an indexed op is an op of the network with that id;
* `rows_indexIr`: the rows are numbered from zero, and no two ids share one;
* `mem_keys_completeJob`: the keys after the pass over one job;
* `kept_completeJob`: the pass keeps the schedule;
* `mem_dependencies_completeJob`: every edge at a missing dispatch becomes a dependency.
-/

/-! ## Dispatch index of a network -/

/-! ## Network graphs -/

namespace ModelBlaster

/-- One operation of a fused group. -/
structure SubOp where
  /-- Op kind. -/
  op : String
  /-- Node name. -/
  name : Option String := none
deriving DecidableEq, Repr

/-- One operation of a network. -/
structure Op where
  /-- Op kind, e.g. `linear_s8`. -/
  op : String
  /-- Node name. -/
  name : Option String := none
  /-- The dispatch id; ops without one are not dispatched. -/
  dispatchId : Option ℤ := none
  /-- The dispatch ids of the producers of this op's inputs. -/
  dependsOn : List ℤ := []
  /-- Input tensors. -/
  inputs : List String := []
  /-- Output tensors. -/
  outputs : List String := []
  /-- The ops of a fused group, in execution order. -/
  subOps : List SubOp := []
deriving DecidableEq, Repr

/-- The IR of one network: its ops in graph order. -/
structure Ir where
  /-- The ops in graph order. -/
  ops : List Op
deriving DecidableEq, Repr

/-- The dispatch ids of a network, in graph order. -/
def Ir.dispatchIds (ir : Ir) : List ℤ := ir.ops.filterMap Op.dispatchId

/-- The op of dispatch `c` consumes what dispatch `p` produces. -/
def IrEdge (ir : Ir) (p c : ℤ) : Prop := ∃ op ∈ ir.ops, op.dispatchId = some c ∧ p ∈ op.dependsOn

/-- Two ops with one dispatch id are the same when the ids are distinct. -/
theorem eq_of_dispatchId_eq {ops : List Op} (hnd : (ops.filterMap Op.dispatchId).Nodup) {a b : Op}
    {d : ℤ} (ha : a ∈ ops) (hb : b ∈ ops) (hda : a.dispatchId = some d)
    (hdb : b.dispatchId = some d) : a = b := by
  induction ops with
  | nil => cases ha
  | cons op rest ih =>
    have hmem : ∀ {o : Op}, o ∈ rest → o.dispatchId = some d →
        d ∈ rest.filterMap Op.dispatchId := fun ho hd => List.mem_filterMap.mpr ⟨_, ho, hd⟩
    have hhead : op.dispatchId = some d → d ∉ rest.filterMap Op.dispatchId := by
      intro hop
      rw [List.filterMap_cons_some hop, List.nodup_cons] at hnd
      exact hnd.1
    have hrest : (rest.filterMap Op.dispatchId).Nodup :=
      hnd.sublist ((List.sublist_cons_self op rest).filterMap _)
    rcases List.mem_cons.mp ha with rfl | ha'
    · rcases List.mem_cons.mp hb with rfl | hb'
      · rfl
      · exact absurd (hmem hb' hdb) (hhead hda)
    · rcases List.mem_cons.mp hb with rfl | hb'
      · exact absurd (hmem ha' hda) (hhead hdb)
      · exact ih hrest ha' hb'

open PyDict

/-- The op kinds that the ingest takes to have no kernel call. -/
def zeroCostOps : List String := ["view", "chunk2_c1"]

/-- The dispatch index of a network, as far as the loop has come. -/
structure IrIndex where
  /-- The op behind a dispatch id. -/
  opByDid : PyDict ℤ Op
  /-- The row of the dispatch function table, `-1` for an op without a row. -/
  remap : PyDict ℤ ℤ
  /-- The next row. -/
  codegenIdx : ℤ

/-- One round of the loop. -/
def indexOp (index : IrIndex) (op : Op) : IrIndex :=
  match op.dispatchId with
  | none => index
  | some d =>
    if op.op ∈ zeroCostOps then
      { index with opByDid := index.opByDid.set d op, remap := index.remap.set d (-1) }
    else
      { opByDid := index.opByDid.set d op
        remap := index.remap.set d index.codegenIdx
        codegenIdx := index.codegenIdx + 1 }

/-- The dispatch index of a network. -/
def indexIr (ir : Ir) : IrIndex := ir.ops.foldl indexOp ⟨PyDict.empty, PyDict.empty, 0⟩

/-! ### The indexed ids -/

/-- A round adds the op under its id. -/
theorem get?_indexOp (index : IrIndex) (op : Op) (d : ℤ) :
    (indexOp index op).opByDid.get? d =
      if op.dispatchId = some d then some op else index.opByDid.get? d := by
  unfold indexOp
  cases hid : op.dispatchId with
  | none => simp
  | some d' =>
    have hflip : (some d' = some d) ↔ d = d' := by
      rw [Option.some.injEq, eq_comm]
    simp only [hflip]
    split_ifs <;> simp [get?_set, *]

private theorem get?_foldl_indexOp (ops : List Op) (d : ℤ) :
    ∀ index : IrIndex, (∀ op, (ops.foldl indexOp index).opByDid.get? d = some op →
        index.opByDid.get? d = some op ∨ (op ∈ ops ∧ op.dispatchId = some d)) ∧
      ((∃ op ∈ ops, op.dispatchId = some d) →
        ∃ op, (ops.foldl indexOp index).opByDid.get? d = some op) ∧
      ((∃ op, index.opByDid.get? d = some op) →
        ∃ op, (ops.foldl indexOp index).opByDid.get? d = some op) := by
  induction ops with
  | nil => exact fun index => ⟨fun op h => Or.inl h, by simp, fun h => h⟩
  | cons op rest ih =>
    intro index
    obtain ⟨hfrom, hrest, hkeep⟩ := ih (indexOp index op)
    refine ⟨fun o ho => ?_, ?_, ?_⟩
    · rcases hfrom o ho with hold | ⟨hmem, hid⟩
      · rw [get?_indexOp] at hold
        split_ifs at hold with hid
        · cases hold
          exact Or.inr ⟨List.mem_cons_self, hid⟩
        · exact Or.inl hold
      · exact Or.inr ⟨List.mem_cons_of_mem _ hmem, hid⟩
    · rintro ⟨o, ho, hid⟩
      rcases List.mem_cons.mp ho with rfl | ho
      · exact hkeep ⟨o, by rw [get?_indexOp, if_pos hid]⟩
      · exact hrest ⟨o, ho, hid⟩
    · rintro ⟨o, ho⟩
      apply hkeep
      rw [get?_indexOp]
      split_ifs
      · exact ⟨op, rfl⟩
      · exact ⟨o, ho⟩

variable {d : ℤ} {ir : Ir}

/-- An indexed op is an op of the network with that dispatch id. -/
theorem exists_op_of_get? {op : Op} (h : (indexIr ir).opByDid.get? d = some op) :
    op ∈ ir.ops ∧ op.dispatchId = some d := by
  have := (get?_foldl_indexOp ir.ops d ⟨PyDict.empty, PyDict.empty, 0⟩).1 op h
  simpa using this

/-- The indexed ids are the dispatch ids of the network. -/
theorem mem_keys_indexIr :
    d ∈ (indexIr ir).opByDid.keys ↔ d ∈ ir.dispatchIds := by
  rw [mem_keys_iff, Ir.dispatchIds, List.mem_filterMap]
  constructor
  · rintro ⟨op, hop⟩
    exact ⟨op, exists_op_of_get? hop⟩
  · exact (get?_foldl_indexOp ir.ops d ⟨PyDict.empty, PyDict.empty, 0⟩).2.1

/-- Every indexed id has a row or `-1`. -/
theorem mem_keys_remap_indexIr :
    d ∈ (indexIr ir).remap.keys ↔ d ∈ (indexIr ir).opByDid.keys := by
  have hfold : ∀ (ops : List Op) (index : IrIndex),
      (d ∈ index.remap.keys ↔ d ∈ index.opByDid.keys) →
      (d ∈ (ops.foldl indexOp index).remap.keys ↔ d ∈ (ops.foldl indexOp index).opByDid.keys) := by
    intro ops
    induction ops with
    | nil => exact fun _ h => h
    | cons op rest ih =>
      intro index h
      refine ih (indexOp index op) ?_
      unfold indexOp
      split
      · exact h
      · split_ifs <;> simp [mem_keys_set, h]
  exact hfold ir.ops ⟨PyDict.empty, PyDict.empty, 0⟩ Iff.rfl

/-! ### The rows -/

/-- The op gets a row. -/
def Op.Rowed (op : Op) : Prop := op.dispatchId ≠ none ∧ op.op ∉ zeroCostOps

instance (op : Op) : Decidable op.Rowed := inferInstanceAs (Decidable (_ ∧ _))

/-- The rows behind some ops. -/
structure Rows (done : List Op) (index : IrIndex) : Prop where
  /-- The next row counts the ops with a row. -/
  next_eq : index.codegenIdx = done.countP fun op => op.Rowed
  /-- Rows are smaller than the next one. -/
  row_lt : ∀ d row, index.remap.get? d = some row → row < index.codegenIdx
  /-- No two ids share a row. -/
  row_inj : ∀ d d' row, index.remap.get? d = some row → index.remap.get? d' = some row →
    0 ≤ row → d = d'

/-- One round keeps the rows apart. -/
private theorem Rows.step {done : List Op} {index : IrIndex} (h : Rows done index) (op : Op) :
    Rows (done ++ [op]) (indexOp index op) := by
  have hcount : (done ++ [op]).countP (fun op => op.Rowed) =
      done.countP (fun op => op.Rowed) + if op.Rowed then 1 else 0 := by
    simp
  have hnext := h.next_eq
  cases hid : op.dispatchId with
  | none =>
    have hnot : ¬op.Rowed := fun hrow => hrow.1 hid
    have hsame : indexOp index op = index := by simp [indexOp, hid]
    rw [hsame]
    refine ⟨?_, h.row_lt, h.row_inj⟩
    rw [hcount, if_neg hnot]
    exact hnext
  | some d =>
    by_cases hzero : op.op ∈ zeroCostOps
    · have hnot : ¬op.Rowed := fun hrow => hrow.2 hzero
      have hset : indexOp index op = { index with
          opByDid := index.opByDid.set d op, remap := index.remap.set d (-1) } := by
        simp [indexOp, hid, hzero]
      rw [hset]
      refine ⟨?_, fun d' row hrow => ?_, fun d' d'' row hrow hrow' hpos => ?_⟩
      · rw [hcount, if_neg hnot]
        exact hnext
      · rw [get?_set] at hrow
        split_ifs at hrow with heq
        · cases hrow
          show (-1 : ℤ) < index.codegenIdx
          omega
        · exact h.row_lt d' row hrow
      · rw [get?_set] at hrow hrow'
        split_ifs at hrow hrow' with heq heq'
        · rw [heq, heq']
        · cases hrow
          exact absurd hpos (by decide)
        · cases hrow'
          exact absurd hpos (by decide)
        · exact h.row_inj d' d'' row hrow hrow' hpos
    · have hrowed : op.Rowed := ⟨by simp [hid], hzero⟩
      have hset : indexOp index op =
          { opByDid := index.opByDid.set d op
            remap := index.remap.set d index.codegenIdx
            codegenIdx := index.codegenIdx + 1 } := by
        simp [indexOp, hid, hzero]
      rw [hset]
      refine ⟨?_, fun d' row hrow => ?_, fun d' d'' row hrow hrow' hpos => ?_⟩
      · rw [hcount, if_pos hrowed]
        show index.codegenIdx + 1 = _
        rw [hnext]
        rfl
      · rw [get?_set] at hrow
        show row < index.codegenIdx + 1
        split_ifs at hrow with heq
        · cases hrow
          omega
        · have := h.row_lt d' row hrow
          omega
      · rw [get?_set] at hrow hrow'
        -- An id that had its row before cannot have the new one.
        split_ifs at hrow hrow' with heq heq'
        · rw [heq, heq']
        · cases hrow
          exact absurd (h.row_lt _ _ hrow') (Int.lt_irrefl _)
        · cases hrow'
          exact absurd (h.row_lt _ _ hrow) (Int.lt_irrefl _)
        · exact h.row_inj d' d'' row hrow hrow' hpos

/-- The rows of a network are numbered from zero, and no two ids share one. -/
theorem rows_indexIr (ir : Ir) : Rows ir.ops (indexIr ir) := by
  have hfold : ∀ (rest done : List Op) (index : IrIndex), Rows done index →
      Rows (done ++ rest) (rest.foldl indexOp index) := by
    intro rest
    induction rest with
    | nil => simp
    | cons op rest ih =>
      intro done index h
      rw [List.append_cons]
      exact ih (done ++ [op]) (indexOp index op) (h.step op)
  exact hfold ir.ops [] ⟨PyDict.empty, PyDict.empty, 0⟩ ⟨rfl, by simp, by simp⟩

end ModelBlaster

namespace ModelBlaster

variable {τ : Type} [LinearOrder τ] [Zero τ] [Add τ]

/-- The activation ops, pinned to the scalar core. -/
def scalarFpOps : List String :=
  ["silu_s8", "elu_s8", "relu_s8", "sigmoid_s8", "tanh_s8", "gelu_s8", "hardswish_s8",
    "softmax_s8"]

/-- `_CPU_E_LABEL` -/
def cpuELabel : String := "CPU_E#0"

/-! ### One missing dispatch -/

/-- The producers of an op that the schedule has, with their keys. -/
def presentProducers (raw : RawTable τ) (job : String) (dependsOn : List ℤ) :
    List (String × RawEntry τ) :=
  dependsOn.filterMap fun p => (raw.get? (dispatchKey job p)).map fun d => (dispatchKey job p, d)

/-- The latest planned end among the producers, at least zero. -/
def producerMaxEnd (producers : List (String × RawEntry τ)) : τ :=
  producers.foldl (fun latest p => max latest (p.2.start + p.2.length)) 0

/-- The first entry of the job, in the order of the schedule. -/
def firstOfJob (raw : RawTable τ) (job : String) : Option (RawEntry τ) :=
  (raw.items.find? fun item => item.2.jobName = job).map Prod.snd

/-- The target and the start time of the entry for a missing dispatch: those of the producers,
else of the job's first entry. -/
def inheritTarget (raw : RawTable τ) (job : String)
    (producers : List (String × RawEntry τ)) : Option String × τ :=
  match producers.findSome? fun p => p.2.hardwareTarget with
  | some target => (some target, producerMaxEnd producers)
  | none =>
    match firstOfJob raw job with
    | some d => (d.hardwareTarget, d.start)
    | none => (none, producerMaxEnd producers)

/-- The target of the entry for a missing op. -/
def synthTarget (op : Op) (inherited : Option String) : String :=
  if op.op ∈ scalarFpOps then cpuELabel else inherited.getD "CPU_P#0"

/-- The entry for the missing dispatch `did`. -/
def synthEntry (raw : RawTable τ) (job : String) (did : ℤ) (op : Op) : RawEntry τ :=
  let producers := presentProducers raw job op.dependsOn
  let inherited := inheritTarget raw job producers
  { id := did
    dependencies := producers.map Prod.fst
    hardwareTarget := some (synthTarget op inherited.1)
    startTime := some inherited.2
    duration := some 0
    jobName := job }

/-- Add the entry for the missing dispatch `did`. -/
def synthesize (index : IrIndex) (job : String) (raw : RawTable τ) (did : ℤ) : RawTable τ :=
  match index.opByDid.get? did with
  | none => raw
  | some op => raw.set (dispatchKey job did) (synthEntry raw job did op)

/-! ### Threading dependencies -/

/-- Append the keys of the added producers that a consumer does not list yet. -/
def threadDeps (job : String) (synthDids : List ℤ) (existing : List String)
    (dependsOn : List ℤ) : List String :=
  dependsOn.foldl
    (fun deps p =>
      if p ∈ synthDids ∧ dispatchKey job p ∉ deps then deps ++ [dispatchKey job p] else deps)
    existing

/-- Make the entry of one op depend on the added producers. -/
def threadOp (job : String) (synthDids : List ℤ) (raw : RawTable τ) (op : Op) : RawTable τ :=
  match op.dispatchId with
  | none => raw
  | some cdid =>
    match raw.get? (dispatchKey job cdid) with
    | none => raw
    | some consumer =>
      raw.set (dispatchKey job cdid)
        { consumer with
          dependencies := threadDeps job synthDids consumer.dependencies op.dependsOn }

/-! ### The pass -/

/-- `sorted(ir_dids - scheduled_dids)` -/
def missingDids (index : IrIndex) (scheduled : List ℤ) : List ℤ :=
  (index.opByDid.keys.filter (· ∉ scheduled)).insertionSort (· ≤ ·)

/-- Complete one job of the network `ir`. -/
def completeJob (ir : Ir) (job : String) (scheduled : List ℤ) (raw : RawTable τ) :
    RawTable τ :=
  let index := indexIr ir
  let missing := missingDids index scheduled
  if missing = [] then raw
  else ir.ops.foldl (threadOp job missing) (missing.foldl (synthesize index job) raw)

/-- `sched_jobs`: the scheduled ids of every job, in the order of the schedule. -/
def schedJobs (raw : RawTable τ) : PyDict String (List ℤ) :=
  raw.items.foldl
    (fun jobs item =>
      jobs.set item.2.jobName ((jobs.get? item.2.jobName).getD [] ++ [item.2.id]))
    PyDict.empty

/-- One round of the loop that fills `job_net_inst`. -/
def addJobNetwork (irs : PyDict String Ir) (jobNet : PyDict String Ir)
    (item : String × RawEntry τ) : Except IngestError (PyDict String Ir) :=
  if item.2.jobName ∈ jobNet.keys then .ok jobNet
  else do
    let (network, _) ← splitJobName item.2.jobName irs.keys
    match irs.get? network with
    | some ir => .ok (jobNet.set item.2.jobName ir)
    | none => .ok jobNet

/-- `job_net_inst`: the graph of every scheduled job of a known network. -/
def jobNetworks (raw : RawTable τ) (irs : PyDict String Ir) :
    Except IngestError (PyDict String Ir) :=
  raw.items.foldlM (addJobNetwork irs) PyDict.empty

/-- Complete every job of a known network. -/
def completeJobs (jobNet : PyDict String Ir) (raw : RawTable τ) : RawTable τ :=
  (schedJobs raw).items.foldl
    (fun raw' item =>
      match jobNet.get? item.1 with
      | none => raw'
      | some ir => completeJob ir item.1 item.2 raw')
    raw

/-- The completion pass. -/
def complete (raw : RawTable τ) (irs : PyDict String Ir) : Except IngestError (RawTable τ) := do
  let jobNet ← jobNetworks raw irs
  return completeJobs jobNet raw

end ModelBlaster

/-! ## Completing one job -/

namespace ModelBlaster

open List PyDict

variable {τ : Type}

/-! ### Entries of a schedule -/

/-- The entries of `raw` are entries of `raw'`, up to dependencies added at the end. -/
def Kept (raw raw' : RawTable τ) : Prop :=
  ∀ k d, raw.get? k = some d → ∃ deps, raw'.get? k = some { d with dependencies := deps } ∧
    d.dependencies <+: deps

theorem Kept.refl (raw : RawTable τ) : Kept raw raw := fun _ d h => ⟨d.dependencies, h, prefix_rfl⟩

variable {a b : RawTable τ}

theorem Kept.trans {c : RawTable τ} (hab : Kept a b) (hbc : Kept b c) : Kept a c := by
  intro k d hd
  obtain ⟨deps, hget, hpre⟩ := hab k d hd
  obtain ⟨deps', hget', hpre'⟩ := hbc k _ hget
  exact ⟨deps', hget', hpre.trans hpre'⟩

variable {k : String}

/-- A kept dependency is listed. -/
theorem Kept.mem_dependencies (h : Kept a b) {dep : String}
    (hk : ∃ d, a.get? k = some d ∧ dep ∈ d.dependencies) :
    ∃ d, b.get? k = some d ∧ dep ∈ d.dependencies := by
  obtain ⟨d, hd, hdep⟩ := hk
  obtain ⟨deps, hget, hpre⟩ := h k d hd
  exact ⟨_, hget, hpre.subset hdep⟩

/-- All entries satisfy `P`. -/
def Entries (P : String → RawEntry τ → Prop) (raw : RawTable τ) : Prop :=
  ∀ k d, raw.get? k = some d → P k d

variable {P : String → RawEntry τ → Prop} {raw : RawTable τ}

/-- The entries are the values of the dictionary. -/
theorem entries_iff :
    Entries P raw ↔ ∀ item ∈ raw.items, P item.1 item.2 :=
  ⟨fun h item hitem => h item.1 item.2 (mem_items_iff.mp hitem),
    fun h k d hget => h (k, d) (mem_items_iff.mpr hget)⟩

variable {d : RawEntry τ}

/-- A write keeps a property of all entries that the new entry has. -/
theorem Entries.set (h : Entries P raw) (hd : P k d) : Entries P (raw.set k d) := by
  intro k' d' hget
  rw [get?_set] at hget
  split_ifs at hget with heq
  · cases hget
    exact heq ▸ hd
  · exact h k' d' hget

/-- Every key is made of the entry's job and dispatch id. -/
def Named (raw : RawTable τ) : Prop := Entries (fun k d => k = dispatchKey d.jobName d.id) raw

variable {job : String} {did : ℤ}

/-- In a named schedule a dispatch key leads to the dispatch of that job and id. -/
theorem Named.of_get? (h : Named raw) (hget : raw.get? (dispatchKey job did) = some d) :
    d.jobName = job ∧ d.id = did := by
  obtain ⟨hjob, hid⟩ := dispatchKey_inj.mp (h _ _ hget)
  exact ⟨hjob.symm, hid.symm⟩

/-- Every dependency is an entry. -/
def DepsClosed (raw : RawTable τ) : Prop :=
  Entries (fun _ d => ∀ dep ∈ d.dependencies, dep ∈ raw.keys) raw

/-! ### Threading dependencies -/

variable {synthDids : List ℤ} {dependsOn : List ℤ} {c p : ℤ}

/-- Threading appends the keys of the added producers. -/
theorem mem_threadDeps {existing : List String} :
    k ∈ threadDeps job synthDids existing dependsOn ↔
      k ∈ existing ∨ ∃ p ∈ dependsOn, p ∈ synthDids ∧ k = dispatchKey job p := by
  unfold threadDeps
  induction dependsOn generalizing existing with
  | nil => simp
  | cons p rest ih =>
    rw [foldl_cons, ih]
    split_ifs with hcond
    · simp only [mem_append, mem_cons, not_mem_nil, or_false, exists_eq_or_imp,
        hcond.1, true_and, or_assoc]
    · have hold : p ∈ synthDids ∧ k = dispatchKey job p → k ∈ existing := by
        rintro ⟨hp, rfl⟩
        by_contra hk
        exact hcond ⟨hp, hk⟩
      simp only [mem_cons, exists_eq_or_imp]
      tauto

/-- Threading keeps the dependencies that were there. -/
theorem prefix_threadDeps (job : String) (synthDids : List ℤ) (existing : List String)
    (dependsOn : List ℤ) : existing <+: threadDeps job synthDids existing dependsOn := by
  unfold threadDeps
  induction dependsOn generalizing existing with
  | nil => exact prefix_rfl
  | cons p rest ih =>
    rw [foldl_cons]
    split_ifs
    · exact (prefix_append _ _).trans (ih _)
    · exact ih _

/-- Threading adds no entry. -/
theorem keys_threadOp (job : String) (synthDids : List ℤ) (raw : RawTable τ) (op : Op) :
    (threadOp job synthDids raw op).keys = raw.keys := by
  unfold threadOp
  split
  next => rfl
  next cdid _ =>
    split
    next => rfl
    next consumer hget => exact keys_set_of_mem _ (mem_keys_of_get? hget)

variable {op : Op}

/-- Threading keeps a property of all entries that does not depend on the dependencies, or
that the new dependencies satisfy. -/
theorem Entries.threadOp (h : Entries P raw)
    (hP : ∀ cdid consumer, op.dispatchId = some cdid → raw.get? (dispatchKey job cdid) = some consumer → P (dispatchKey job cdid) consumer → P (dispatchKey job cdid) { consumer with dependencies := threadDeps job synthDids consumer.dependencies op.dependsOn })
    :
    Entries P (ModelBlaster.threadOp job synthDids raw op) := by
  unfold ModelBlaster.threadOp
  split
  next => exact h
  next cdid hid =>
    split
    next => exact h
    next consumer hget => exact h.set (hP cdid consumer hid hget (h _ _ hget))

theorem kept_threadOp (job : String) (synthDids : List ℤ) (raw : RawTable τ) (op : Op) :
    Kept raw (threadOp job synthDids raw op) := by
  unfold threadOp
  split
  next => exact Kept.refl raw
  next cdid _ =>
    split
    next => exact Kept.refl raw
    next consumer hget =>
      intro k d hd
      rw [get?_set]
      split_ifs with heq
      · subst heq
        rw [hget] at hd
        cases hd
        exact ⟨_, rfl, prefix_threadDeps _ _ _ _⟩
      · exact ⟨d.dependencies, hd, prefix_rfl⟩

theorem kept_foldl_threadOp (job : String) (synthDids : List ℤ) (ops : List Op) :
    ∀ raw : RawTable τ, Kept raw (ops.foldl (threadOp job synthDids) raw) := by
  induction ops with
  | nil => exact Kept.refl
  | cons op rest ih => exact fun raw => (kept_threadOp job synthDids raw op).trans (ih _)

theorem keys_foldl_threadOp (job : String) (synthDids : List ℤ) (ops : List Op) :
    ∀ raw : RawTable τ, (ops.foldl (threadOp job synthDids) raw).keys = raw.keys := by
  induction ops with
  | nil => exact fun _ => rfl
  | cons op rest ih => exact fun raw => (ih _).trans (keys_threadOp job synthDids raw op)

/-- A present consumer comes to depend on every added producer. -/
theorem mem_dependencies_foldl_threadOp {ops : List Op} (hop : op ∈ ops)
    (hid : op.dispatchId = some c) (hp : p ∈ op.dependsOn) (hsynth : p ∈ synthDids) :
    ∀ raw : RawTable τ, dispatchKey job c ∈ raw.keys →
      ∃ d, (ops.foldl (threadOp job synthDids) raw).get? (dispatchKey job c) = some d ∧
        dispatchKey job p ∈ d.dependencies := by
  induction ops with
  | nil => cases hop
  | cons o rest ih =>
    intro raw hc
    rcases mem_cons.mp hop with rfl | hop
    · refine (kept_foldl_threadOp job synthDids rest _).mem_dependencies ?_
      obtain ⟨consumer, hget⟩ := mem_keys_iff.mp hc
      have hstep : threadOp job synthDids raw op = raw.set (dispatchKey job c) { consumer with
            dependencies := threadDeps job synthDids consumer.dependencies op.dependsOn } := by
        simp only [threadOp, hid, hget]
      rw [hstep]
      exact ⟨_, get?_set_self _ _ _, mem_threadDeps.mpr (Or.inr ⟨p, hp, hsynth, rfl⟩)⟩
    · exact ih hop _ (by rwa [keys_threadOp])

/-! ### One missing dispatch -/

variable [LinearOrder τ] [Zero τ] [Add τ]

omit [LinearOrder τ] [Zero τ] [Add τ] in
/-- The producers that the schedule has, among those of an op. -/
theorem mem_presentProducers :
    (k, d) ∈ presentProducers raw job dependsOn ↔
      ∃ p ∈ dependsOn, k = dispatchKey job p ∧ raw.get? k = some d := by
  simp only [presentProducers, mem_filterMap, Option.map_eq_some_iff, Prod.mk.injEq]
  constructor
  · rintro ⟨p, hp, d', hget, rfl, rfl⟩
    exact ⟨p, hp, rfl, hget⟩
  · rintro ⟨p, hp, rfl, hget⟩
    exact ⟨p, hp, d, hget, rfl, rfl⟩

/-- The entry for a missing dispatch depends on the producers that the schedule has. -/
theorem mem_dependencies_synthEntry :
    k ∈ (synthEntry raw job did op).dependencies ↔
      ∃ p ∈ op.dependsOn, k = dispatchKey job p ∧ k ∈ raw.keys := by
  simp only [synthEntry, mem_map, Prod.exists, exists_and_right, exists_eq_right,
    mem_presentProducers, mem_keys_iff]
  constructor
  · rintro ⟨d, p, hp, hk, hget⟩
    exact ⟨p, hp, hk, d, hget⟩
  · rintro ⟨p, hp, hk, d, hget⟩
    exact ⟨d, p, hp, hk, hget⟩

variable {index : IrIndex}

theorem synthesize_of_get? (h : index.opByDid.get? did = some op) :
    synthesize index job raw did = raw.set (dispatchKey job did) (synthEntry raw job did op) := by
  simp only [synthesize, h]

/-- The added key. -/
theorem mem_keys_synthesize (h : did ∈ index.opByDid.keys) :
    k ∈ (synthesize index job raw did).keys ↔ k = dispatchKey job did ∨ k ∈ raw.keys := by
  obtain ⟨op, hop⟩ := mem_keys_iff.mp h
  rw [synthesize_of_get? hop, mem_keys_set]

theorem mem_keys_foldl_synthesize (dids : List ℤ) (h : ∀ did ∈ dids, did ∈ index.opByDid.keys) :
    ∀ raw : RawTable τ, k ∈ (dids.foldl (synthesize index job) raw).keys ↔
      k ∈ raw.keys ∨ ∃ did ∈ dids, k = dispatchKey job did := by
  induction dids with
  | nil => simp
  | cons did rest ih =>
    intro raw
    rw [foldl_cons, ih fun d hd => h d (mem_cons_of_mem _ hd),
      mem_keys_synthesize (h did mem_cons_self)]
    simp only [mem_cons, exists_eq_or_imp]
    tauto

/-- Adding the entry for a dispatch whose key is free keeps the schedule. -/
theorem kept_synthesize (h : dispatchKey job did ∉ raw.keys) :
    Kept raw (synthesize index job raw did) := by
  unfold synthesize
  split
  next => exact Kept.refl raw
  next op _ =>
    intro k d hd
    have hne : k ≠ dispatchKey job did := by
      rintro rfl
      exact h (mem_keys_of_get? hd)
    exact ⟨d.dependencies, by rw [get?_set_of_ne _ _ hne]; exact hd, prefix_rfl⟩

theorem kept_foldl_synthesize (dids : List ℤ) (hnd : dids.Nodup)
    (hidx : ∀ did ∈ dids, did ∈ index.opByDid.keys) :
    ∀ raw : RawTable τ, (∀ did ∈ dids, dispatchKey job did ∉ raw.keys) →
      Kept raw (dids.foldl (synthesize index job) raw) := by
  induction dids with
  | nil => exact fun raw _ => Kept.refl raw
  | cons did rest ih =>
    intro raw hfree
    rw [nodup_cons] at hnd
    refine (kept_synthesize (hfree did mem_cons_self)).trans
      (ih hnd.2 (fun d hd => hidx d (mem_cons_of_mem _ hd)) _ fun d hd hmem => ?_)
    rw [mem_keys_synthesize (hidx did mem_cons_self)] at hmem
    rcases hmem with heq | hold
    · exact hnd.1 ((dispatchKey_inj.mp heq).2 ▸ hd)
    · exact hfree d (mem_cons_of_mem _ hd) hold

/-- The entry for a missing dispatch comes to depend on every producer that the schedule
has. -/
theorem mem_dependencies_foldl_synthesize {dids : List ℤ} (hnd : dids.Nodup)
    (hidx : ∀ did ∈ dids, did ∈ index.opByDid.keys) (hc : c ∈ dids)
    (hop : index.opByDid.get? c = some op) (hp : p ∈ op.dependsOn) :
    ∀ raw : RawTable τ, (∀ did ∈ dids, dispatchKey job did ∉ raw.keys) →
      dispatchKey job p ∈ raw.keys →
      ∃ d, (dids.foldl (synthesize index job) raw).get? (dispatchKey job c) = some d ∧
        dispatchKey job p ∈ d.dependencies := by
  induction dids with
  | nil => cases hc
  | cons did rest ih =>
    intro raw hfree hpresent
    rw [nodup_cons] at hnd
    have hrest : ∀ d ∈ rest, dispatchKey job d ∉ (synthesize index job raw did).keys := by
      intro d hd hmem
      rw [mem_keys_synthesize (hidx did mem_cons_self)] at hmem
      rcases hmem with heq | hold
      · exact hnd.1 ((dispatchKey_inj.mp heq).2 ▸ hd)
      · exact hfree d (mem_cons_of_mem _ hd) hold
    have hidx' : ∀ d ∈ rest, d ∈ index.opByDid.keys := fun d hd =>
      hidx d (mem_cons_of_mem _ hd)
    rcases mem_cons.mp hc with rfl | hc
    · refine (kept_foldl_synthesize rest hnd.2 hidx' _ hrest).mem_dependencies ?_
      rw [synthesize_of_get? hop]
      exact ⟨_, get?_set_self _ _ _, mem_dependencies_synthEntry.mpr ⟨p, hp, rfl, hpresent⟩⟩
    · refine ih hnd.2 hidx' hc _ hrest ?_
      rw [mem_keys_synthesize (hidx did mem_cons_self)]
      exact Or.inr hpresent

/-! ### One job -/

variable {ir : Ir} {scheduled : List ℤ}

/-- The missing dispatches are those of the network that are not scheduled. -/
theorem mem_missingDids :
    did ∈ missingDids (indexIr ir) scheduled ↔ did ∈ ir.dispatchIds ∧ did ∉ scheduled := by
  simp [missingDids, mem_keys_indexIr]

theorem nodup_missingDids (index : IrIndex) (scheduled : List ℤ) :
    (missingDids index scheduled).Nodup :=
  (perm_insertionSort _ _).nodup_iff.mpr (index.opByDid.keys_nodup.filter _)

private theorem mem_keys_of_mem_missingDids (h : did ∈ missingDids (indexIr ir) scheduled) :
    did ∈ (indexIr ir).opByDid.keys :=
  mem_keys_indexIr.mpr (mem_missingDids.mp h).1

/-- The keys after the pass over one job. -/
theorem mem_keys_completeJob :
    k ∈ (completeJob ir job scheduled raw).keys ↔
      k ∈ raw.keys ∨ ∃ did ∈ missingDids (indexIr ir) scheduled, k = dispatchKey job did := by
  unfold completeJob
  by_cases hnil : missingDids (indexIr ir) scheduled = []
  · simp [hnil]
  · rw [if_neg hnil, keys_foldl_threadOp,
      mem_keys_foldl_synthesize _ fun did => mem_keys_of_mem_missingDids]

/-- `scheduled` lists the dispatches that `raw` has of the job. -/
def Scheduled (raw : RawTable τ) (job : String) (scheduled : List ℤ) : Prop :=
  ∀ did, dispatchKey job did ∈ raw.keys ↔ did ∈ scheduled

section Job

variable {ir : Ir} {job : String} {scheduled : List ℤ} {raw : RawTable τ}

omit [LinearOrder τ] [Zero τ] [Add τ] in
private theorem free_of_scheduled (h : Scheduled raw job scheduled) :
    ∀ did ∈ missingDids (indexIr ir) scheduled, dispatchKey job did ∉ raw.keys :=
  fun did hdid hmem => (mem_missingDids.mp hdid).2 ((h did).mp hmem)

/-- The pass over one job keeps the schedule. -/
theorem kept_completeJob (h : Scheduled raw job scheduled) :
    Kept raw (completeJob ir job scheduled raw) := by
  simp only [completeJob]
  split_ifs
  · exact Kept.refl raw
  · exact (kept_foldl_synthesize _ (nodup_missingDids _ _)
      (fun did => mem_keys_of_mem_missingDids) raw (free_of_scheduled h)).trans
      (kept_foldl_threadOp _ _ _ _)

/-- After the pass over one job the consumer of every edge at a missing dispatch depends on
the producer, whatever the order of the ids. -/
theorem mem_dependencies_completeJob (hids : ir.dispatchIds.Nodup) (h : Scheduled raw job scheduled)
    {op : Op} {c p : ℤ} (hop : op ∈ ir.ops) (hc : op.dispatchId = some c) (hp : p ∈ op.dependsOn)
    (hpir : p ∈ ir.dispatchIds) (hmissing : c ∉ scheduled ∨ p ∉ scheduled) :
    ∃ d, (completeJob ir job scheduled raw).get? (dispatchKey job c) = some d ∧
      dispatchKey job p ∈ d.dependencies := by
  have hcir : c ∈ ir.dispatchIds := mem_filterMap.mpr ⟨op, hop, hc⟩
  have hne : missingDids (indexIr ir) scheduled ≠ [] := by
    rcases hmissing with hm | hm
    · exact ne_nil_of_mem (mem_missingDids.mpr ⟨hcir, hm⟩)
    · exact ne_nil_of_mem (mem_missingDids.mpr ⟨hpir, hm⟩)
  have hkeys : ∀ did ∈ missingDids (indexIr ir) scheduled, did ∈ (indexIr ir).opByDid.keys :=
    fun did => mem_keys_of_mem_missingDids
  unfold completeJob
  rw [if_neg hne]
  by_cases hpsched : p ∈ scheduled
  · -- the producer was there when the consumer was added
    have hcmiss : c ∉ scheduled := hmissing.resolve_right (not_not.mpr hpsched)
    obtain ⟨op', hop'⟩ := mem_keys_iff.mp (mem_keys_indexIr.mpr hcir)
    obtain ⟨hmem', hid'⟩ := exists_op_of_get? hop'
    have heq : op' = op := eq_of_dispatchId_eq hids hmem' hop hid' hc
    exact (kept_foldl_threadOp _ _ _ _).mem_dependencies
      (mem_dependencies_foldl_synthesize (nodup_missingDids _ _) hkeys
        (mem_missingDids.mpr ⟨hcir, hcmiss⟩) hop' (heq ▸ hp) raw (free_of_scheduled h)
        ((h p).mpr hpsched))
  · -- the producer was added, so the second pass threads it
    refine mem_dependencies_foldl_threadOp hop hc hp (mem_missingDids.mpr ⟨hpir, hpsched⟩) _ ?_
    rw [mem_keys_foldl_synthesize _ hkeys]
    by_cases hcsched : c ∈ scheduled
    · exact Or.inl ((h c).mpr hcsched)
    · exact Or.inr ⟨c, mem_missingDids.mpr ⟨hcir, hcsched⟩, rfl⟩

/-- Induction over the writes of the pass over one job: first the entries for the missing
dispatches, each under a free key, then the dependencies of the consumers, when all added
entries are present. -/
theorem completeJob_induction {I : RawTable τ → Prop} (h : Scheduled raw job scheduled)
    (hraw : I raw)
    (hsynth : ∀ cur did op, did ∈ missingDids (indexIr ir) scheduled →
      (indexIr ir).opByDid.get? did = some op → dispatchKey job did ∉ cur.keys → I cur →
      I (cur.set (dispatchKey job did) (synthEntry cur job did op)))
    (hthread : ∀ cur op cdid consumer, op ∈ ir.ops → op.dispatchId = some cdid →
      cur.get? (dispatchKey job cdid) = some consumer →
      (∀ p ∈ missingDids (indexIr ir) scheduled, dispatchKey job p ∈ cur.keys) → I cur →
      I (cur.set (dispatchKey job cdid) { consumer with
        dependencies := threadDeps job (missingDids (indexIr ir) scheduled)
          consumer.dependencies op.dependsOn })) :
    I (completeJob ir job scheduled raw) := by
  have hkeys : ∀ did ∈ missingDids (indexIr ir) scheduled, did ∈ (indexIr ir).opByDid.keys :=
    fun did => mem_keys_of_mem_missingDids
  have hfirst : ∀ dids : List ℤ, dids.Nodup →
      (∀ did ∈ dids, did ∈ missingDids (indexIr ir) scheduled) →
      ∀ cur, (∀ did ∈ dids, dispatchKey job did ∉ cur.keys) → I cur →
        I (dids.foldl (synthesize (indexIr ir) job) cur) := by
    intro dids
    induction dids with
    | nil => exact fun _ _ _ _ hI => hI
    | cons did rest ih =>
      intro hnd hmem cur hfree hI
      rw [nodup_cons] at hnd
      have hidx := hkeys did (hmem did mem_cons_self)
      obtain ⟨op, hop⟩ := mem_keys_iff.mp hidx
      refine ih hnd.2 (fun d hd => hmem d (mem_cons_of_mem _ hd)) _ (fun d hd hd' => ?_) ?_
      · rw [mem_keys_synthesize hidx] at hd'
        rcases hd' with heq | hold
        · exact hnd.1 ((dispatchKey_inj.mp heq).2 ▸ hd)
        · exact hfree d (mem_cons_of_mem _ hd) hold
      · rw [synthesize_of_get? hop]
        exact hsynth cur did op (hmem did mem_cons_self) hop (hfree did mem_cons_self) hI
  have hsecond : ∀ ops : List Op, (∀ op ∈ ops, op ∈ ir.ops) →
      ∀ cur, (∀ p ∈ missingDids (indexIr ir) scheduled, dispatchKey job p ∈ cur.keys) → I cur →
        I (ops.foldl (threadOp job (missingDids (indexIr ir) scheduled)) cur) := by
    intro ops
    induction ops with
    | nil => exact fun _ _ _ hI => hI
    | cons op rest ih =>
      intro hmem cur hpresent hI
      refine ih (fun o ho => hmem o (mem_cons_of_mem _ ho)) _ ?_ ?_
      · rwa [keys_threadOp]
      · unfold threadOp
        split
        next => exact hI
        next cdid hid =>
          split
          next => exact hI
          next consumer hget =>
            exact hthread cur op cdid consumer (hmem op mem_cons_self) hid hget hpresent hI
  simp only [completeJob]
  split_ifs
  · exact hraw
  · refine hsecond ir.ops (fun _ hop => hop) _ (fun p hp => ?_)
      (hfirst _ (nodup_missingDids _ _) (fun _ hdid => hdid) raw (free_of_scheduled h) hraw)
    rw [mem_keys_foldl_synthesize _ hkeys]
    exact Or.inr ⟨p, hp, rfl⟩

end Job

end ModelBlaster

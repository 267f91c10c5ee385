import ModelBlaster.Ingest.Completion

/-!
# The generated dispatch function table

The code generator walks the ops of a network and appends one row to the table of dispatch
functions for every op with a kernel call. The schedule ingest numbers the same ops on its
own, by a second list of op kinds without a call. The two lists differ, so the numbers agree
exactly on the networks without the kinds that only the code generator skips.

## Main definitions

* `emitRows`: the rows of `MODEL_<UMID>_DISPATCH_FNS`;
* `opCount`: `MODEL_<UMID>_OP_COUNT`;
* `annotateDispatches`: the numbering of the ops by the extractor;
* `IndexAgreement`: the ingest's row numbers are the positions in the table.

## Main results

* `annotated_annotateDispatches`: the extractor's numbering is one that the tables rely on;
* `indexAgreement_iff`: when the two numberings agree.
-/

namespace ModelBlaster

open List PyDict

variable {ε : Type}

/-! ### The code generator -/

/-- `_zero_cost_ops`: the op kinds without a kernel call. -/
def skeletonZeroCostOps : List String := ["view", "chunk2_c1", "chunk2_c1_f16", "chunk2_c1_s8"]

/-- `_EXPLICIT_F16_OPS`: the half-precision kinds with a branch of their own. -/
def explicitF16Ops : List String :=
  ["relu_f16", "elu_f16", "sigmoid_f16", "batchnorm2d_f16", "maxpool2d_f16", "conv2d_f16",
    "linear_f16", "depthwise_conv2d_f16", "layer_norm_f16", "lstm_f16", "gelu_f16",
    "softmax_f16", "add_f16", "mul_f16", "mul_c1_f16", "adaptive_avg_pool2d_f16", "slice_c_f16",
    "cat2_c1_f16", "cat3_c1_f16", "cat4_c1_f16", "silu_f16", "upsample_nearest_f16", "pad_f16",
    "bmm_f16", "matmul_f16", "matmul_ta_f16", "matmul_tb_f16", "matmul_tatb_f16",
    "chunk2_c1_f16", "cast_i8_to_f16", "cast_f16_to_i8"]

/-- `_f16`, the suffix of the half-precision kinds. -/
def f16Suffix : List Char := "_f16".toList

/-- The kind that selects the branch: a half-precision kind without a branch of its own takes
that of its base kind. -/
def branchKind (kind : String) : String :=
  if f16Suffix <:+ kind.toList ∧ kind ∉ explicitF16Ops then
    String.ofList (kind.toList.take (kind.toList.length - f16Suffix.length))
  else kind

/-- How kernel calls are written, or refused. -/
structure CallBuilder (ε : Type) where
  /-- The call of an op. -/
  opCall : Op → Except ε Unit
  /-- The call of one op of a fused group. -/
  subOpCall : SubOp → Except ε Unit

/-- The calls of one dispatch function. -/
def dispatchCalls (calls : CallBuilder ε) (op : Op) : Except ε Unit :=
  if "__fused__".toList.isPrefixOf op.op.toList then
    (op.subOps.filter (·.op ∉ skeletonZeroCostOps)).forM calls.subOpCall
  else calls.opCall op

/-- One round of the op loop: the dispatch id of the function that is appended. -/
def emitRow (calls : CallBuilder ε) (rows : List (Option ℤ)) (op : Op) :
    Except ε (List (Option ℤ)) :=
  let op' := { op with op := branchKind op.op }
  if op'.op ∈ skeletonZeroCostOps then .ok rows
  else do
    dispatchCalls calls op'
    return rows ++ [op'.dispatchId]

/-- `invoke_table_rows`: the dispatch ids of the functions in the table. -/
def emitRows (calls : CallBuilder ε) (ir : Ir) : Except ε (List (Option ℤ)) :=
  ir.ops.foldlM (emitRow calls) []

/-- `op_count` -/
def opCount (ir : Ir) : ℕ := ir.ops.countP (·.op ∉ skeletonZeroCostOps)

/-! ### The extractor -/

/-- The producers of tensors and the next dispatch id. -/
structure AnnotateState where
  producerOf : PyDict String ℤ := PyDict.empty
  nextId : ℤ := 0

/-- `sorted(deps)` for the producers of an op's inputs. -/
def producersOf (producerOf : PyDict String ℤ) (inputs : List String) : List ℤ :=
  (inputs.filterMap producerOf.get?).dedup.insertionSort (· ≤ ·)

/-- Annotate one op: views pass their producer on, other ops get the next id. -/
def annotateOp (st : AnnotateState) (op : Op) : AnnotateState × Op :=
  if op.op = "view" then
    ({ st with
        producerOf := (op.inputs.zip op.outputs).foldl
          (fun producers io =>
            match producers.get? io.1 with
            | some d => producers.set io.2 d
            | none => producers)
          st.producerOf },
      { op with dispatchId := none, dependsOn := [] })
  else
    ({ producerOf := op.outputs.foldl (fun producers t => producers.set t st.nextId) st.producerOf
       nextId := st.nextId + 1 },
      { op with dispatchId := some st.nextId, dependsOn := producersOf st.producerOf op.inputs })

/-- Annotate the ops from left to right. -/
def annotateFrom (st : AnnotateState) : List Op → List Op
  | [] => []
  | op :: rest => (annotateOp st op).2 :: annotateFrom (annotateOp st op).1 rest

/-- `_annotate_dispatches` -/
def annotateDispatches (ops : List Op) : List Op := annotateFrom {} ops

/-- A numbering that the tables rely on: only views go without an id, and ids are distinct. -/
structure Annotated (ir : Ir) : Prop where
  view_of_none : ∀ op ∈ ir.ops, op.dispatchId = none → op.op = "view"
  nodup : ir.dispatchIds.Nodup

variable {ops : List Op} {rows : List (Option ℤ)} {d : ℤ} {op : Op} {calls : CallBuilder ε}

private theorem mem_annotateFrom {st : AnnotateState} :
    (∀ op ∈ annotateFrom st ops, op.dispatchId = none → op.op = "view") ∧
      (∀ d ∈ (annotateFrom st ops).filterMap Op.dispatchId, st.nextId ≤ d) ∧
      ((annotateFrom st ops).filterMap Op.dispatchId).Nodup := by
  induction ops generalizing st with
  | nil => simp [annotateFrom]
  | cons op rest ih =>
    rw [annotateFrom]
    obtain ⟨hview, hle, hnd⟩ := @ih (annotateOp st op).1
    by_cases hop : op.op = "view"
    · simp only [annotateOp, if_pos hop] at hview hle hnd ⊢
      refine ⟨fun o ho hnone => ?_, ?_, ?_⟩
      · rcases mem_cons.mp ho with rfl | ho
        · exact hop
        · exact hview o ho hnone
      · simpa using hle
      · simpa using hnd
    · simp only [annotateOp, if_neg hop] at hview hle hnd ⊢
      refine ⟨fun o ho hnone => ?_, fun d hd => ?_, ?_⟩
      · rcases mem_cons.mp ho with rfl | ho
        · cases hnone
        · exact hview o ho hnone
      · simp only [filterMap_cons, mem_cons] at hd
        rcases hd with rfl | hd
        · exact le_rfl
        · have := hle d hd
          omega
      · simp only [filterMap_cons, nodup_cons]
        exact ⟨fun hmem => by have := hle _ hmem; omega, hnd⟩

/-- The extractor numbers the ops as the tables rely on. -/
theorem annotated_annotateDispatches (ops : List Op) : Annotated ⟨annotateDispatches ops⟩ :=
  ⟨mem_annotateFrom.1, mem_annotateFrom.2.2⟩

/-! ### Agreement -/

/-- The kinds that the code generator skips and the ingest counts. -/
def skewedKinds : List String :=
  ["chunk2_c1_f16", "chunk2_c1_s8", "view_f16", "chunk2_c1_f16_f16", "chunk2_c1_s8_f16"]

/-- The position of a dispatch function in the table, `-1` when there is none. -/
def rowOf (rows : List (Option ℤ)) (d : ℤ) : ℤ := if some d ∈ rows then rows.idxOf (some d) else -1

/-- The ingest's number for a dispatch id is the position of its function in the table, and
`-1` for an op without a function. -/
def IndexAgreement (ir : Ir) (rows : List (Option ℤ)) : Prop :=
  ∀ d ∈ ir.dispatchIds, (indexIr ir).remap.get? d = some (rowOf rows d)

/-- A kind selects the branch of its own name, or lost the suffix. -/
private theorem eq_or_eq_append_of_branchKind (kind : String) :
    kind = branchKind kind ∨ kind = String.ofList ((branchKind kind).toList ++ f16Suffix) := by
  unfold branchKind
  split_ifs with hcond
  · obtain ⟨⟨stem, hstem⟩, -⟩ := hcond
    have htake : kind.toList.take (kind.toList.length - f16Suffix.length) = stem := by
      rw [← hstem]
      simp
    right
    rw [htake, String.toList_ofList, hstem, String.ofList_toList]
  · exact Or.inl rfl

/-- The code generator skips what the ingest skips, and the skewed kinds. -/
theorem branchKind_mem_iff (kind : String) :
    branchKind kind ∈ skeletonZeroCostOps ↔ kind ∈ zeroCostOps ∨ kind ∈ skewedKinds := by
  constructor
  · intro hmem
    have hcand : kind ∈ skeletonZeroCostOps ++
        skeletonZeroCostOps.map fun base => String.ofList (base.toList ++ f16Suffix) := by
      rcases eq_or_eq_append_of_branchKind kind with heq | heq
      · exact mem_append_left _ (heq ▸ hmem)
      · rw [heq]
        exact mem_append_right _ (mem_map_of_mem hmem)
    have hall : ∀ k ∈ skeletonZeroCostOps ++
        skeletonZeroCostOps.map fun base => String.ofList (base.toList ++ f16Suffix),
        branchKind k ∈ skeletonZeroCostOps → k ∈ zeroCostOps ∨ k ∈ skewedKinds := by
      decide
    exact hall kind hcand hmem
  · have hzero : ∀ k ∈ zeroCostOps, branchKind k ∈ skeletonZeroCostOps := by decide
    have hskew : ∀ k ∈ skewedKinds, branchKind k ∈ skeletonZeroCostOps := by decide
    rintro (hmem | hmem)
    · exact hzero kind hmem
    · exact hskew kind hmem

/-- What the two numberings have in common after some ops: the ingest's counter is the number of
rows, and the ids met so far have their positions. -/
private structure Aligned (done : List Op) (index : IrIndex) (rows : List (Option ℤ)) : Prop where
  counter : index.codegenIdx = rows.length
  rows_sub : ∀ r ∈ rows, r ∈ done.map Op.dispatchId
  remap : ∀ d ∈ done.filterMap Op.dispatchId, index.remap.get? d = some (rowOf rows d)

private theorem rowOf_append_of_ne {d' : ℤ} (h : d' ≠ d) :
    rowOf (rows ++ [some d]) d' = rowOf rows d' := by
  unfold rowOf
  by_cases hmem : some d' ∈ rows
  · rw [if_pos (mem_append_left _ hmem), if_pos hmem, idxOf_append_of_mem hmem]
  · rw [if_neg hmem, if_neg]
    simp [hmem, h]

private theorem rowOf_append_self (h : some d ∉ rows) :
    rowOf (rows ++ [some d]) d = rows.length := by
  rw [rowOf, if_pos (by simp), idxOf_append_of_notMem h]
  simp

private theorem aligned_step {done : List Op} {index : IrIndex} {rows' : List (Option ℤ)}
    (h : Aligned done index rows) (hview : op.dispatchId = none → op.op = "view")
    (hfresh : ∀ d, op.dispatchId = some d → d ∉ done.filterMap Op.dispatchId)
    (hskew : op.op ∉ skewedKinds) (hemit : emitRow calls rows op = .ok rows') :
    Aligned (done ++ [op]) (indexOp index op) rows' := by
  have hzero : branchKind op.op ∈ skeletonZeroCostOps ↔ op.op ∈ zeroCostOps := by
    rw [branchKind_mem_iff, or_iff_left hskew]
  have hnew : ∀ d, op.dispatchId = some d → some d ∉ rows := by
    intro d hd hmem
    obtain ⟨o, ho, hod⟩ := mem_map.mp (h.rows_sub _ hmem)
    exact hfresh d hd (mem_filterMap.mpr ⟨o, ho, hod⟩)
  have hsub : ∀ r ∈ rows, r ∈ (done ++ [op]).map Op.dispatchId := by
    intro r hr
    rw [map_append]
    exact mem_append_left _ (h.rows_sub r hr)
  simp only [emitRow, hzero] at hemit
  cases hid : op.dispatchId with
  | none =>
    have hop : op.op ∈ zeroCostOps := by simp [hview hid, zeroCostOps]
    rw [if_pos hop] at hemit
    cases hemit
    refine ⟨by simpa [indexOp, hid] using h.counter, hsub, fun d hd => ?_⟩
    simp only [filterMap_append, filterMap_cons, hid, filterMap_nil, append_nil] at hd
    simpa [indexOp, hid] using h.remap d hd
  | some d =>
    have hmem : ∀ d', d' ∈ (done ++ [op]).filterMap Op.dispatchId →
        d' = d ∨ (d' ≠ d ∧ d' ∈ done.filterMap Op.dispatchId) := by
      intro d' hd'
      by_cases heq : d' = d
      · exact Or.inl heq
      · simp only [filterMap_append, filterMap_cons, hid, filterMap_nil,
          mem_append, mem_singleton, heq, or_false] at hd'
        exact Or.inr ⟨heq, hd'⟩
    by_cases hop : op.op ∈ zeroCostOps
    · rw [if_pos hop] at hemit
      cases hemit
      simp only [indexOp, hid, if_pos hop]
      refine ⟨h.counter, hsub, fun d' hd' => ?_⟩
      rcases hmem d' hd' with rfl | ⟨hne, hold⟩
      · rw [get?_set_self, rowOf, if_neg (hnew d' hid)]
      · rw [get?_set_of_ne _ _ hne]
        exact h.remap d' hold
    · rw [if_neg hop, Fallible.bind_eq_ok_iff] at hemit
      obtain ⟨-, -, heq⟩ := hemit
      cases heq
      simp only [indexOp, hid, if_neg hop]
      refine ⟨?_, fun r hr => ?_, fun d' hd' => ?_⟩
      · rw [h.counter]
        simp
      · rcases mem_append.mp hr with hr | hr
        · exact hsub r hr
        · rw [mem_singleton] at hr
          simp [hr, hid]
      · rcases hmem d' hd' with rfl | ⟨hne, hold⟩
        · rw [get?_set_self, rowOf_append_self (hnew d' hid), h.counter]
        · rw [get?_set_of_ne _ _ hne, rowOf_append_of_ne hne]
          exact h.remap d' hold

private theorem aligned_foldl (ops : List Op) :
    ∀ (done : List Op) (index : IrIndex) (rows rows' : List (Option ℤ)),
      Aligned done index rows → (∀ op ∈ ops, op.dispatchId = none → op.op = "view") →
      ((done ++ ops).filterMap Op.dispatchId).Nodup → (∀ op ∈ ops, op.op ∉ skewedKinds) →
      ops.foldlM (emitRow calls) rows = .ok rows' →
      Aligned (done ++ ops) (ops.foldl indexOp index) rows' := by
  induction ops with
  | nil =>
    intro done index rows rows' h _ _ _ hemit
    cases hemit
    simpa using h
  | cons op rest ih =>
    intro done index rows rows' h hview hnd hskew hemit
    rw [foldlM_cons, Fallible.bind_eq_ok_iff] at hemit
    obtain ⟨next, hnext, hrest⟩ := hemit
    have hfresh : ∀ d, op.dispatchId = some d → d ∉ done.filterMap Op.dispatchId := by
      intro d hd hmem
      rw [filterMap_append, nodup_append] at hnd
      exact hnd.2.2 d hmem d (mem_filterMap.mpr ⟨op, mem_cons_self, hd⟩) rfl
    have hstep := aligned_step h (hview op mem_cons_self) hfresh (hskew op mem_cons_self) hnext
    have := ih (done ++ [op]) (indexOp index op) next rows' hstep
      (fun o ho => hview o (mem_cons_of_mem _ ho)) (by simpa using hnd)
      (fun o ho => hskew o (mem_cons_of_mem _ ho)) hrest
    simpa using this

/-! ### Disagreement -/

/-- Only ops with a kernel call have a row. -/
private theorem of_mem_emitRows (ops : List Op) :
    ∀ (rows rows' : List (Option ℤ)), ops.foldlM (emitRow calls) rows = .ok rows' →
      ∀ r ∈ rows', r ∈ rows ∨
        ∃ op ∈ ops, op.dispatchId = r ∧ branchKind op.op ∉ skeletonZeroCostOps := by
  induction ops with
  | nil =>
    intro rows rows' h r hr
    cases h
    exact Or.inl hr
  | cons op rest ih =>
    intro rows rows' h r hr
    rw [foldlM_cons, Fallible.bind_eq_ok_iff] at h
    obtain ⟨next, hnext, hrest⟩ := h
    rcases ih next rows' hrest r hr with hold | ⟨o, ho, hid, hkind⟩
    · simp only [emitRow] at hnext
      split_ifs at hnext with hzero
      · cases hnext
        exact Or.inl hold
      · rw [Fallible.bind_eq_ok_iff] at hnext
        obtain ⟨-, -, heq⟩ := hnext
        cases heq
        rcases mem_append.mp hold with hold | hnew
        · exact Or.inl hold
        · rw [mem_singleton] at hnew
          exact Or.inr ⟨op, mem_cons_self, hnew.symm, hzero⟩
    · exact Or.inr ⟨o, mem_cons_of_mem _ ho, hid, hkind⟩

private theorem remap_foldl_of_notMem (h : d ∉ ops.filterMap Op.dispatchId) :
    ∀ index : IrIndex, (ops.foldl indexOp index).remap.get? d = index.remap.get? d := by
  induction ops with
  | nil => exact fun _ => rfl
  | cons op rest ih =>
    intro index
    have hrest : d ∉ rest.filterMap Op.dispatchId := fun hmem =>
      h (((sublist_cons_self op rest).filterMap _).subset hmem)
    rw [foldl_cons, ih hrest]
    unfold indexOp
    split
    next => rfl
    next d' hid =>
      have hne : d ≠ d' := by
        rintro rfl
        exact h (mem_filterMap.mpr ⟨op, mem_cons_self, hid⟩)
      split_ifs <;> exact get?_set_of_ne _ _ hne

/-- The ingest numbers every op that it does not skip. -/
private theorem remap_nonneg (hop : op ∈ ops) (hid : op.dispatchId = some d)
    (hkind : op.op ∉ zeroCostOps) (hnd : (ops.filterMap Op.dispatchId).Nodup) :
    ∀ index : IrIndex, 0 ≤ index.codegenIdx →
      ∃ row, 0 ≤ row ∧ (ops.foldl indexOp index).remap.get? d = some row := by
  induction ops with
  | nil => cases hop
  | cons o rest ih =>
    intro index hidx
    have hrest : (rest.filterMap Op.dispatchId).Nodup :=
      hnd.sublist ((sublist_cons_self o rest).filterMap _)
    rw [foldl_cons]
    rcases mem_cons.mp hop with rfl | hop'
    · have hnot : d ∉ rest.filterMap Op.dispatchId := by
        rw [filterMap_cons_some hid, nodup_cons] at hnd
        exact hnd.1
      refine ⟨index.codegenIdx, hidx, ?_⟩
      rw [remap_foldl_of_notMem hnot]
      simp only [indexOp, hid, if_neg hkind, get?_set_self]
    · refine ih hop' hrest _ ?_
      unfold indexOp
      split
      · exact hidx
      · split_ifs
        · exact hidx
        · simp only
          omega

/-- The ingest's numbers are the positions in the generated table iff the network has no op of
a kind that only the code generator skips. -/
theorem indexAgreement_iff {calls : CallBuilder ε} {ir : Ir} {rows : List (Option ℤ)}
    (hann : Annotated ir) (hemit : emitRows calls ir = .ok rows) :
    IndexAgreement ir rows ↔ ∀ op ∈ ir.ops, op.op ∉ skewedKinds := by
  constructor
  · intro hagree op hop hskew
    have hid : ∃ d, op.dispatchId = some d := by
      cases hnone : op.dispatchId with
      | none =>
        have hnot : "view" ∉ skewedKinds := by decide
        rw [hann.view_of_none op hop hnone] at hskew
        exact absurd hskew hnot
      | some d => exact ⟨d, rfl⟩
    obtain ⟨d, hd⟩ := hid
    have hkind : op.op ∉ zeroCostOps := by
      have hdisj : ∀ k ∈ skewedKinds, k ∉ zeroCostOps := by decide
      exact hdisj _ hskew
    obtain ⟨row, hrow, hget⟩ := remap_nonneg hop hd hkind hann.nodup
      ⟨PyDict.empty, PyDict.empty, 0⟩ le_rfl
    have hnone : some d ∉ rows := by
      intro hmem
      rcases of_mem_emitRows ir.ops [] rows hemit _ hmem with hnil | ⟨o, ho, hod, hcall⟩
      · cases hnil
      · have heq := eq_of_dispatchId_eq hann.nodup ho hop hod hd
        subst heq
        exact hcall ((branchKind_mem_iff o.op).mpr (Or.inr hskew))
    have hsame := hagree d (mem_filterMap.mpr ⟨op, hop, hd⟩)
    rw [rowOf, if_neg hnone] at hsame
    have : row = -1 := Option.some.inj (hget.symm.trans hsame)
    omega
  · intro hskew d hd
    have haligned := aligned_foldl ir.ops [] ⟨PyDict.empty, PyDict.empty, 0⟩ [] rows
      ⟨rfl, by simp, by simp⟩ hann.view_of_none hann.nodup hskew hemit
    exact haligned.remap d hd

/-! ### A split half-precision tensor -/

/-- Calls that are never refused. -/
def anyCall : CallBuilder Unit := ⟨fun _ => .ok (), fun _ => .ok ()⟩

/-- A half-precision network that splits a tensor and activates one half. -/
def splitIr : Ir :=
  ⟨annotateDispatches
    [{ op := "silu_f16", inputs := ["x"], outputs := ["y"] },
      { op := "chunk2_c1_f16", inputs := ["y"], outputs := ["a", "b"] },
      { op := "relu_f16", inputs := ["a"], outputs := ["z"] }]⟩

/-- The table of the split network has two rows, and the ingest numbers its last op with the row
behind them. -/
theorem splitIr_disagrees :
    Annotated splitIr ∧ emitRows anyCall splitIr = .ok [some 0, some 2] ∧
      ¬IndexAgreement splitIr [some 0, some 2] := by
  refine ⟨annotated_annotateDispatches _, by decide, fun h => ?_⟩
  have hlast := h 2 (by decide)
  have hget : (indexIr splitIr).remap.get? 2 = some 2 := by decide
  have hrow : rowOf [some 0, some 2] 2 = 1 := by decide
  rw [hget, hrow] at hlast
  cases hlast

/-- The equivalence at the split network. -/
theorem indexAgreement_iff_splitIr :
    IndexAgreement splitIr [some 0, some 2] ↔ ∀ op ∈ splitIr.ops, op.op ∉ skewedKinds :=
  indexAgreement_iff (annotated_annotateDispatches _)
    (by decide : emitRows anyCall splitIr = .ok [some 0, some 2])

end ModelBlaster

import ModelBlaster.Library.PyDict
import ModelBlaster.Library.PyList
import Mathlib.Data.Rat.Init

/-!
# Graphs under rewriting

`graph.json` as the graph rewriters and the code generator read and write it. Ops carry the
annotations of the rewriters, and a fused op carries its constituents.

An absent dictionary and an empty one are the same where the source tests truth; an absent list
is empty where the source reads it with a default.

## Main definitions

* `annotateGraphOps`: the numbered graph.

## Main results

* `annotateGraphOps_spec`: ids count up, and dependencies are earlier and smaller.
-/

namespace ModelBlaster

open List

/-- The axis along which an op is split. -/
inductive SplitAxis where
  /-- Output features; such tiles carry no `axis`. -/
  | N
  /-- Output channels. -/
  | OC
deriving DecidableEq, Repr

/-- `split_from` of a tile. -/
structure SplitFrom where
  /-- The dispatch id of the op that was split. -/
  opId : ℤ
  /-- The number of the tile. -/
  tile : ℕ
  /-- The number of tiles. -/
  nSplits : ℕ
  /-- The axis. -/
  axis : SplitAxis
  /-- `tile_n` or `tile_oc`. -/
  width : ℕ
  /-- `tile_offset_N` or `tile_offset_OC`. -/
  offset : ℕ
deriving DecidableEq, Repr

/-- `unfused_from` of a restored op. -/
structure UnfusedFrom where
  /-- The dispatch id of the fused op. -/
  opId : ℤ
  /-- The number of the piece. -/
  piece : ℕ
  /-- The number of pieces. -/
  nPieces : ℕ
  /-- The kind of the fused op. -/
  fusedOp : String
deriving DecidableEq, Repr

/-- The quantization of an op. -/
structure OpQuant where
  /-- The scale of the input. -/
  scaleIn : Option ℚ := none
  /-- The scale of the output. -/
  scaleOut : Option ℚ := none
  /-- The integer parameters of the kernel. -/
  params : List (String × ℤ) := []
deriving DecidableEq, Repr

/-- One op of a graph. -/
structure GraphOp where
  /-- Op kind. -/
  op : String
  /-- Node name. -/
  name : String := ""
  /-- The dispatch id; view ops have none. -/
  dispatchId : Option ℤ := none
  /-- The dispatch ids that the op waits for. -/
  dependsOn : List ℤ := []
  /-- Input tensors. -/
  inputs : List String := []
  /-- Output tensors. -/
  outputs : List String := []
  /-- Where the op may run. -/
  hardwareTarget : Option String := none
  /-- The sizes of the kernel call, empty for an op without a shape. -/
  shape : PyDict String ℕ := PyDict.empty
  /-- Where the window of a view begins, in elements. -/
  offset : ℕ := 0
  /-- The quantization, if there is one. -/
  quant : Option OpQuant := none
  /-- The key of the weight. -/
  weight : Option String := none
  /-- The key of the bias. -/
  bias : Option String := none
  /-- Set on tiles. -/
  splitFrom : Option SplitFrom := none
  /-- The number of shards that the op is to be compiled for. -/
  shardFactor : Option ℤ := none
  /-- Whether the schedule asked for the shards. -/
  xpurtScheduleShardFactor : Bool := false
  /-- Set on fused ops of the fusion rewriter: the dispatch ids of the members. -/
  fusedFrom : Option (List ℤ) := none
  /-- The tensors inside of such an op. -/
  internalTensors : Option (List String) := none
  /-- Set on restored ops. -/
  unfusedFrom : Option UnfusedFrom := none
  /-- The constituents of a fused op, in order. -/
  subOps : List GraphOp := []

/-- The metadata of a tensor. -/
structure TensorInfo where
  /-- The shape, empty where it is not known. -/
  shape : List ℕ
  /-- The type of the elements. -/
  dtype : String := "i8"
  /-- The scale and the zero point. -/
  quant : Option (ℚ × ℤ) := none
deriving DecidableEq, Repr

/-- `id_remap`: where the dispatches of the input of a rewriter have gone. -/
inductive IdRemap where
  /-- Many to one, as fusion writes it. -/
  | scalar (entries : List (ℤ × ℤ))
  /-- One to many, as the other rewriters write it. -/
  | lists (entries : List (ℤ × List ℤ))
deriving DecidableEq, Repr

/-- A graph. -/
structure Graph where
  /-- The network. -/
  name : String := "<unknown>"
  /-- The ops, in execution order. -/
  ops : List GraphOp
  /-- The tensors that `output` names. -/
  modelOutputs : List String := []
  /-- The tensors that have a buffer. -/
  tensors : PyDict String TensorInfo := PyDict.empty
  /-- The list of dispatch ids, if there is one. -/
  dispatches : Option (List ℤ) := none
  /-- The renumbering of the last rewriter. -/
  idRemap : Option IdRemap := none

/-- The dispatch ids of a list of ops, in list order. -/
def dispatchIds (ops : List GraphOp) : List ℤ := ops.filterMap GraphOp.dispatchId

theorem dispatchIds_append (ops ops' : List GraphOp) :
    dispatchIds (ops ++ ops') = dispatchIds ops ++ dispatchIds ops' :=
  filterMap_append

variable {d : ℤ} {ops : List GraphOp} {op : GraphOp}

/-- With distinct dispatch ids, an id belongs to one op. -/
theorem eq_of_dispatchIds_nodup (hnd : (dispatchIds ops).Nodup) {a b : GraphOp} (ha : a ∈ ops)
    (hb : b ∈ ops) (hda : a.dispatchId = some d) (hdb : b.dispatchId = some d) : a = b :=
  PyList.eq_of_filterMap_nodup hnd ha hb hda hdb

/-- The dispatches of a list are numbered, from `n` on. -/
def numberFrom : ℕ → List GraphOp → List GraphOp
  | _, [] => []
  | n, op :: rest =>
    match op.dispatchId with
    | none => op :: numberFrom n rest
    | some _ => { op with dispatchId := some (n : ℤ) } :: numberFrom (n + 1) rest

theorem numberFrom_append (n : ℕ) (l l' : List GraphOp) :
    numberFrom n (l ++ l') = numberFrom n l ++ numberFrom (n + (dispatchIds l).length) l' := by
  induction l generalizing n with
  | nil => rfl
  | cons op rest ih =>
    cases hop : op.dispatchId with
    | none =>
      simp only [numberFrom, hop, ih, dispatchIds, filterMap_cons_none hop, cons_append]
    | some did =>
      simp only [numberFrom, hop, ih, dispatchIds, filterMap_cons_some hop, cons_append,
        length_cons]
      congr 3
      omega

/-- The numbers count up. -/
theorem dispatchIds_numberFrom (n : ℕ) (l : List GraphOp) : dispatchIds (numberFrom n l) =
    (List.range' n (dispatchIds l).length).map fun i : ℕ => (i : ℤ) := by
  induction l generalizing n with
  | nil => rfl
  | cons op rest ih =>
    cases hop : op.dispatchId with
    | none =>
      simp only [numberFrom, hop]
      rw [dispatchIds, filterMap_cons_none hop, dispatchIds, filterMap_cons_none hop]
      exact ih n
    | some did =>
      have hlen : (dispatchIds (op :: rest)).length = (dispatchIds rest).length + 1 := by
        rw [dispatchIds, filterMap_cons_some hop]
        rfl
      simp only [numberFrom, hop]
      rw [hlen, range'_succ, map_cons, ← ih]
      rfl

/-- The dependencies between dispatches, as edges from a dependency to its dependent. -/
def dependencyEdges (ops : List GraphOp) : List (ℤ × ℤ) :=
  ops.flatMap fun op =>
    match op.dispatchId with
    | none => []
    | some did => op.dependsOn.map fun dep => (dep, did)

theorem mem_dependencyEdges {a b : ℤ} :
    (a, b) ∈ dependencyEdges ops ↔ ∃ op ∈ ops, op.dispatchId = some b ∧ a ∈ op.dependsOn := by
  simp only [dependencyEdges, mem_flatMap]
  constructor
  · rintro ⟨op, hop, hmem⟩
    cases hid : op.dispatchId with
    | none => simp [hid] at hmem
    | some did =>
      simp only [hid, mem_map, Prod.mk.injEq] at hmem
      obtain ⟨dep, hdep, rfl, rfl⟩ := hmem
      exact ⟨op, hop, hid, hdep⟩
  · rintro ⟨op, hop, hid, hdep⟩
    exact ⟨op, hop, by simp [hid, hdep]⟩

/-- Every dependency of a dispatch is a dispatch that is listed before it. -/
def DependenciesEarlier (ops : List GraphOp) : Prop :=
  ∀ (i : ℕ) (hi : i < ops.length), ops[i].dispatchId ≠ none → ∀ dep ∈ ops[i].dependsOn,
    dep ∈ dispatchIds (ops.take i)

instance (ops : List GraphOp) : Decidable (DependenciesEarlier ops) :=
  inferInstanceAs (Decidable (∀ (i : ℕ) (_ : i < ops.length), _ → ∀ dep ∈ _, _))

theorem DependenciesEarlier.mem {pre post : List GraphOp}
    (h : DependenciesEarlier (pre ++ op :: post)) (hid : op.dispatchId ≠ none) {dep : ℤ}
    (hdep : dep ∈ op.dependsOn) : dep ∈ dispatchIds pre := by
  have hlen : pre.length < (pre ++ op :: post).length := by simp
  have hmem := h pre.length hlen
  have hget : (pre ++ op :: post)[pre.length] = op := by simp
  rw [hget, take_left] at hmem
  exact hmem hid dep hdep

/-- One op more. -/
theorem dependenciesEarlier_append_single :
    DependenciesEarlier (ops ++ [op]) ↔ DependenciesEarlier ops ∧
      (op.dispatchId ≠ none → ∀ dep ∈ op.dependsOn, dep ∈ dispatchIds ops) := by
  constructor
  · intro h
    refine ⟨fun i hi hid dep hdep => ?_, fun hid dep hdep => h.mem hid hdep⟩
    have hi' : i < (ops ++ [op]).length := by
      rw [length_append]
      omega
    have hmem := h i hi'
    rw [getElem_append_left hi, take_append_of_le_length (Nat.le_of_lt hi)] at hmem
    exact hmem hid dep hdep
  · rintro ⟨h, hlast⟩ i hi
    rw [length_append, length_singleton] at hi
    by_cases hlt : i < ops.length
    · rw [getElem_append_left hlt, take_append_of_le_length (Nat.le_of_lt hlt)]
      exact h i hlt
    · obtain rfl : i = ops.length := by omega
      have hget : (ops ++ [op])[ops.length] = op := by simp
      rw [hget, take_left]
      exact hlast

/-- Every dependency of a dispatch has a smaller id. -/
def DependenciesSmaller (ops : List GraphOp) : Prop :=
  ∀ op ∈ ops, ∀ did ∈ op.dispatchId, ∀ dep ∈ op.dependsOn, dep < did

instance (ops : List GraphOp) : Decidable (DependenciesSmaller ops) :=
  inferInstanceAs (Decidable (∀ op ∈ ops, ∀ did ∈ op.dispatchId, ∀ dep ∈ op.dependsOn, dep < did))

/-- When ids count up along the list, earlier dependencies are smaller. -/
theorem DependenciesEarlier.smaller (h : DependenciesEarlier ops) {n : ℕ}
    (hids : dispatchIds ops = (List.range n).map fun i : ℕ => (i : ℤ)) :
    DependenciesSmaller ops := by
  intro op hop did hdid dep hdep
  obtain ⟨pre, post, rfl⟩ := append_of_mem hop
  have hdid' : op.dispatchId = some did := hdid
  have hmem : dep ∈ dispatchIds pre := h.mem (by rw [hdid']; exact Option.some_ne_none did) hdep
  have hpair : (dispatchIds (pre ++ op :: post)).Pairwise (· < ·) := by
    rw [hids, pairwise_map]
    exact pairwise_lt_range.imp Int.ofNat_lt.mpr
  rw [dispatchIds, filterMap_append, filterMap_cons_some hdid'] at hpair
  exact (pairwise_append.mp hpair).2.2 dep hmem did mem_cons_self

/-- `_ops_by_id`: the ops under their dispatch ids. Views have none. -/
def opsById (ops : List GraphOp) : PyDict ℤ GraphOp :=
  PyDict.ofList (ops.filterMap fun op => op.dispatchId.map (·, op))

/-- The keys of `opsById` are the dispatch ids. -/
theorem mem_keys_opsById :
    d ∈ (opsById ops).keys ↔ d ∈ dispatchIds ops := by
  simp [opsById, PyDict.mem_keys_ofList, dispatchIds]

/-- With distinct dispatch ids, every op is found under its id. -/
theorem get?_opsById_iff (hnd : (dispatchIds ops).Nodup) :
    (opsById ops).get? d = some op ↔ op ∈ ops ∧ op.dispatchId = some d := by
  have hkeys : ((ops.filterMap fun op => op.dispatchId.map (·, op)).map Prod.fst) =
      dispatchIds ops := by
    rw [map_filterMap, dispatchIds]
    congr 1
    funext op
    cases op.dispatchId <;> rfl
  rw [opsById, PyDict.get?_ofList_iff (hkeys ▸ hnd), mem_filterMap]
  constructor
  · rintro ⟨op', hmem, heq⟩
    obtain ⟨d', hd', hpair⟩ := Option.map_eq_some_iff.mp heq
    cases hpair
    exact ⟨hmem, hd'⟩
  · rintro ⟨hmem, hd⟩
    exact ⟨op, hmem, by rw [hd]; rfl⟩

end ModelBlaster

/-! ## Annotation of dispatches -/

namespace ModelBlaster

/-- The tables of the annotation. -/
structure Annotation where
  /-- The ops so far. -/
  ops : List GraphOp := []
  /-- `producer_of` -/
  producerOf : PyDict String ℤ := PyDict.empty
  /-- `next_id` -/
  nextId : ℕ := 0

/-- A view passes a producer on from its input to its output. -/
def passProducer (producerOf : PyDict String ℤ) (tensors : String × String) : PyDict String ℤ :=
  match producerOf.get? tensors.1 with
  | some did => producerOf.set tensors.2 did
  | none => producerOf

/-- Annotate one op. -/
def annotateGraphOp (st : Annotation) (op : GraphOp) : Annotation :=
  if op.op = "view" then
    { st with
      ops := st.ops ++ [{ op with
        dispatchId := none, hardwareTarget := some "any", dependsOn := [] }]
      producerOf := (op.inputs.zip op.outputs).foldl passProducer st.producerOf }
  else
    { ops := st.ops ++ [{ op with
        dispatchId := some (st.nextId : ℤ)
        hardwareTarget := some "any"
        dependsOn := PyList.sortedSet (op.inputs.filterMap st.producerOf.get?) }]
      producerOf := op.outputs.foldl (fun d tensor => d.set tensor (st.nextId : ℤ)) st.producerOf
      nextId := st.nextId + 1 }

/-- `_annotate_dispatches`, on the ops of a graph. -/
def annotateGraphOps (ops : List GraphOp) : List GraphOp := (ops.foldl annotateGraphOp {}).ops

/-- What holds of the tables. -/
private structure Annotation.Inv (st : Annotation) : Prop where
  ids : dispatchIds st.ops = (List.range st.nextId).map fun n : ℕ => (n : ℤ)
  producers : ∀ t d, st.producerOf.get? t = some d → d ∈ dispatchIds st.ops
  earlier : DependenciesEarlier st.ops

variable {ids : List ℤ}

/-- Producers of a table are those of entries. -/
private theorem passProducer_mem (l : List (String × String)) :
    ∀ producerOf : PyDict String ℤ, (∀ t d, producerOf.get? t = some d → d ∈ ids) →
      ∀ t d, (l.foldl passProducer producerOf).get? t = some d → d ∈ ids := by
  induction l with
  | nil => exact fun _ h => h
  | cons p rest ih =>
    intro producerOf h
    apply ih
    intro t d hget
    unfold passProducer at hget
    split at hget
    next did hdid =>
      rw [PyDict.get?_set] at hget
      split_ifs at hget
      · exact Option.some.inj hget ▸ h _ _ hdid
      · exact h t d hget
    · exact h t d hget

private theorem setProducer_mem {n : ℤ} (hn : n ∈ ids) (l : List String) :
    ∀ producerOf : PyDict String ℤ, (∀ t d, producerOf.get? t = some d → d ∈ ids) →
      ∀ t d, (l.foldl (fun d tensor => d.set tensor n) producerOf).get? t = some d → d ∈ ids := by
  induction l with
  | nil => exact fun _ h => h
  | cons p rest ih =>
    intro producerOf h
    apply ih
    intro t d hget
    rw [PyDict.get?_set] at hget
    split_ifs at hget
    · exact Option.some.inj hget ▸ hn
    · exact h t d hget

/-- One op. -/
private theorem Annotation.Inv.step {st : Annotation} (h : st.Inv) (op : GraphOp) :
    (annotateGraphOp st op).Inv := by
  unfold annotateGraphOp
  split_ifs with hview
  · have hids : ∀ op' : GraphOp, op'.dispatchId = none →
        dispatchIds (st.ops ++ [op']) = dispatchIds st.ops := by
      intro op' hop
      simp [dispatchIds, List.filterMap_append, hop]
    refine ⟨by rw [hids _ rfl]; exact h.ids, ?_, ?_⟩
    · rw [hids _ rfl]
      exact passProducer_mem _ _ h.producers
    · exact dependenciesEarlier_append_single.mpr ⟨h.earlier, fun hop => absurd rfl hop⟩
  · have hids : ∀ op' : GraphOp, op'.dispatchId = some (st.nextId : ℤ) →
        dispatchIds (st.ops ++ [op']) = dispatchIds st.ops ++ [(st.nextId : ℤ)] := by
      intro op' hop
      simp [dispatchIds, List.filterMap_append, hop]
    refine ⟨?_, ?_, ?_⟩
    · rw [hids _ rfl, h.ids, List.range_succ, List.map_append]
      rfl
    · rw [hids _ rfl]
      apply setProducer_mem (List.mem_append_right _ (List.mem_singleton_self _))
      exact fun t d hget => List.mem_append_left _ (h.producers t d hget)
    · refine dependenciesEarlier_append_single.mpr ⟨h.earlier, fun _ dep hdep => ?_⟩
      rw [PyList.mem_sortedSet, List.mem_filterMap] at hdep
      obtain ⟨t, -, ht⟩ := hdep
      exact h.producers t dep ht

/-- In an annotated graph ids count up along the list, and dependencies are earlier and smaller. -/
theorem annotateGraphOps_spec (ops : List GraphOp) :
    (∃ n : ℕ, dispatchIds (annotateGraphOps ops) = (List.range n).map fun i : ℕ => (i : ℤ)) ∧
      DependenciesEarlier (annotateGraphOps ops) ∧
      DependenciesSmaller (annotateGraphOps ops) := by
  have hinv : ∀ (l : List GraphOp) (st : Annotation), st.Inv → (l.foldl annotateGraphOp st).Inv := by
    intro l
    induction l with
    | nil => exact fun _ h => h
    | cons op rest ih => exact fun st h => ih _ (h.step op)
  have h : (ops.foldl annotateGraphOp {}).Inv :=
    hinv ops {} ⟨rfl, fun t d hget => (by cases hget), fun i hi => absurd hi (Nat.not_lt_zero i)⟩
  refine ⟨⟨_, h.ids⟩, h.earlier, ?_⟩
  exact h.earlier.smaller h.ids

end ModelBlaster

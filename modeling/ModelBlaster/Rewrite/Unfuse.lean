import ModelBlaster.Graph
import ModelBlaster.Library.Fallible
import ModelBlaster.Library.Contraction
import ModelBlaster.Library.EdgeList

/-!
# Unfusing

The rewriter that restores the constituents of fused ops as dispatches of their own. A fused op is
checked to be a chain that ends in its outputs. The tensors between constituents are registered, and
dispatch ids are assigned anew. Dependencies are then rebuilt for the whole graph from the tensors
that dispatches read and write, by name. Views write nothing.

## Main definitions

* `validateUnfuse`: the checks on one op;
* `restoreOp`: one op of the rewriting pass;
* `rebuildDependsOn`: the dependencies of the whole graph;
* `applyUnfuseHint`: the rewriter;
* `piecesOf`: what an op is replaced by;
* `unfusedOps`: the ops that are returned;
* `pieceTable`: the pieces of a graph under their tags;
* `NeedsTensor`: what a tensor consists of, through views and tiles;
* `KeepsOrder`: what an op needs is produced before its pieces;
* `ReadsByName`: one piece reads by name what another has written.

## Main results

* `checkTargets_eq_ok_iff`: what is checked;
* `applyUnfuseHint_eq_ok_iff`: when a hint is applied, and what is returned;
* `applyUnfuseHint_keepsOrder_iff`: when unfusing keeps the order.
-/

namespace ModelBlaster

/-- `UnfuseHintError`, by its cause. -/
inductive UnfuseHintError where
  /-- The graph has no such dispatch. -/
  | unknownId (did : ℤ)
  /-- The hint names a dispatch twice. -/
  | listedTwice (did : ℤ)
  /-- The op has fewer than two constituents. -/
  | notFused (did : ℤ) (n : ℕ)
  /-- A constituent does not read what the one before it produces. -/
  | notComposed (did : ℤ) (i : ℕ)
  /-- The last constituent has other outputs than the op. -/
  | renamesOutput (did : ℤ)
  /-- A constituent has no shape. -/
  | noShape (did : ℤ) (i : ℕ)
  /-- A constituent has no quantization. -/
  | noQuant (did : ℤ) (i : ℕ)
  /-- The shape of an inner tensor cannot be derived. -/
  | noShapeRule (did : ℤ) (kind : String)
  /-- The scale of an inner tensor cannot be recovered. -/
  | noScale (did : ℤ) (kind : String)
  /-- The type of an inner tensor cannot be inferred. -/
  | noDtype (kind : String)
  /-- An inner tensor is registered with another shape. -/
  | shapeMismatch (did : ℤ) (tensor : String)
deriving DecidableEq, Repr

/-- How the rewriter fails. -/
inductive UnfuseError where
  /-- The hint is refused. -/
  | hint (e : UnfuseHintError)
  /-- A shape has no such size. -/
  | keyError (key : String)
deriving DecidableEq, Repr

/-! ### Checks -/

/-- The first constituent, from the `i`-th on, whose output the next one does not read. -/
def brokenLink : ℕ → List GraphOp → Option ℕ
  | i, a :: b :: rest =>
    match a.outputs.head? with
    | some produced => if produced ∈ b.inputs then brokenLink (i + 1) (b :: rest) else some i
    | none => some i
  | _, _ => none

/-- `_validate` -/
def validateUnfuse (op : GraphOp) (did : ℤ) : Except UnfuseHintError Unit :=
  if op.subOps.length < 2 then .error (.notFused did op.subOps.length)
  else
    match brokenLink 0 op.subOps with
    | some i => .error (.notComposed did i)
    | none =>
      if op.subOps.getLast?.map GraphOp.outputs ≠ some op.outputs then .error (.renamesOutput did)
      else
        match op.subOps.findIdx? fun sub => sub.shape.items = [] ∨ sub.quant = none with
        | some i =>
          if (op.subOps[i]?.map fun sub => sub.shape.items) = some [] then .error (.noShape did i)
          else .error (.noQuant did i)
        | none => .ok ()

/-! ### Inner tensors -/

/-- `kind.startswith(pre)` -/
def startsWith (kind pre : String) : Bool := pre.toList.isPrefixOf kind.toList

/-- `kind.endswith(suf)` -/
def endsWith (kind suf : String) : Bool := suf.toList.isSuffixOf kind.toList

/-- `_SHAPE_PRESERVING` -/
def shapePreserving : List String :=
  ["batchnorm2d_s8", "silu_s8", "relu_s8", "elu_s8", "sigmoid_s8", "leaky_relu_s8", "gelu_s8"]

/-- `_dtype_for` -/
def dtypeFor (kind : String) : Except UnfuseError String :=
  if endsWith kind "_s8" then .ok "i8"
  else if endsWith kind "_f16" then .ok "f16"
  else if endsWith kind "_f32" then .ok "f32"
  else .error (.hint (.noDtype kind))

/-- `sh[key]` -/
def shapeAt (shape : PyDict String ℕ) (key : String) : Except UnfuseError ℕ :=
  match shape.get? key with
  | some n => .ok n
  | none => .error (.keyError key)

/-- `_shape_from_op` -/
def shapeFromOp (sub : GraphOp) (did : ℤ) : Except UnfuseError (List ℕ) :=
  if startsWith sub.op "conv2d" then ["N", "OC", "OH", "OW"].mapM (shapeAt sub.shape)
  else if startsWith sub.op "linear" then ["M", "N"].mapM (shapeAt sub.shape)
  else .error (.hint (.noShapeRule did sub.op))

/-- `_internal_tensor`: the tensor that `sub` hands to `consumer`. -/
def internalTensor (sub consumer : GraphOp) (fusedShape : List ℕ) (did : ℤ) :
    Except UnfuseError TensorInfo := do
  let shape ← if sub.op ∈ shapePreserving then pure fusedShape else shapeFromOp sub did
  match (consumer.quant.bind OpQuant.scaleIn).or (sub.quant.bind OpQuant.scaleOut) with
  | none => .error (.hint (.noScale did sub.op))
  | some scale =>
    let dtype ← dtypeFor sub.op
    return { shape := shape, dtype := dtype, quant := some (scale, 0) }

/-- Register the tensors between the constituents. -/
def registerInternals (fusedShape : List ℕ) (did : ℤ) :
    List GraphOp → PyDict String TensorInfo → Except UnfuseError (PyDict String TensorInfo)
  | sub :: consumer :: rest, tensors => do
    let info ← internalTensor sub consumer fusedShape did
    let name := sub.outputs.headD ""
    match tensors.get? name with
    | some registered =>
      if registered.shape ≠ [] ∧ registered.shape ≠ info.shape then
        .error (.hint (.shapeMismatch did name))
      else registerInternals fusedShape did (consumer :: rest) tensors
    | none => registerInternals fusedShape did (consumer :: rest) (tensors.set name info)
  | _, tensors => .ok tensors

/-! ### The rewriter -/

/-- The tables of the rewriting pass. -/
structure Restoration where
  /-- `new_ops` -/
  newOps : List GraphOp := []
  /-- `tensors` -/
  tensors : PyDict String TensorInfo
  /-- `id_remap` -/
  idRemap : PyDict ℤ (List ℤ) := PyDict.empty
  /-- `next_id` -/
  nextId : ℕ := 0

/-- A constituent as an op of its own. -/
def restoredPiece (op : GraphOp) (did : ℤ) (nextId : ℕ) (sub : GraphOp) (j : ℕ) : GraphOp :=
  { sub with
    dependsOn := []
    dispatchId := some ((nextId + j : ℕ) : ℤ)
    hardwareTarget := sub.hardwareTarget.or (some (op.hardwareTarget.getD "any"))
    unfusedFrom := some ⟨did, j, op.subOps.length, op.op⟩ }

/-- The shape of the first output of a fused op. -/
def fusedShape (tensors : PyDict String TensorInfo) (op : GraphOp) : List ℕ :=
  match op.outputs.head?.bind tensors.get? with
  | some info => info.shape
  | none => []

/-- Rewriting pass, one op. -/
def restoreOp (targets : List ℤ) (st : Restoration) (op : GraphOp) :
    Except UnfuseError Restoration :=
  match op.dispatchId with
  | none => .ok { st with newOps := st.newOps ++ [op] }
  | some did =>
    if did ∉ targets then
      .ok { st with
        newOps := st.newOps ++ [{ op with dispatchId := some (st.nextId : ℤ) }]
        idRemap := st.idRemap.set did [(st.nextId : ℤ)]
        nextId := st.nextId + 1 }
    else do
      let tensors ← registerInternals (fusedShape st.tensors op) did op.subOps st.tensors
      let pieces := op.subOps.zipIdx.map fun p => restoredPiece op did st.nextId p.1 p.2
      return { newOps := st.newOps ++ pieces
               tensors := tensors
               idRemap := st.idRemap.set did (dispatchIds pieces)
               nextId := st.nextId + op.subOps.length }

/-- `producer_of`: the last dispatch that writes a tensor. -/
def producerOf (ops : List GraphOp) : PyDict String ℤ :=
  PyDict.ofList (ops.flatMap fun op =>
    match op.dispatchId with
    | none => []
    | some did => op.outputs.map (·, did))

/-- The dependencies of a dispatch, from the tensors that it reads. -/
def dependsOnOf (ops : List GraphOp) (op : GraphOp) (did : ℤ) : List ℤ :=
  PyList.sortedSet ((op.inputs.filterMap (producerOf ops).get?).filter (· ≠ did))

/-- The dependencies of the whole graph. -/
def rebuildDependsOn (ops : List GraphOp) : List GraphOp :=
  ops.map fun op =>
    match op.dispatchId with
    | none => op
    | some did => { op with dependsOn := dependsOnOf ops op did }

/-- The hint names fused ops, each of them once. -/
def checkTargets (byId : PyDict ℤ GraphOp) : List ℤ → List ℤ → Except UnfuseError Unit
  | _, [] => .ok ()
  | seen, did :: rest =>
    match byId.get? did with
    | none => .error (.hint (.unknownId did))
    | some op =>
      if did ∈ seen then .error (.hint (.listedTwice did))
      else
        match validateUnfuse op did with
        | .error e => .error (.hint e)
        | .ok () => checkTargets byId (did :: seen) rest

/-- `apply_unfuse_hint` -/
def applyUnfuseHint (g : Graph) (unfuseOps : List ℤ) (model : Option String) :
    Except UnfuseError Graph :=
  if unfuseOps = [] then .ok g
  else do
    checkTargets (opsById g.ops) [] unfuseOps
    let st ← g.ops.foldlM (restoreOp unfuseOps) { tensors := g.tensors }
    let newOps := rebuildDependsOn st.newOps
    return { g with
      name := (model.filter (· ≠ "")).getD g.name
      ops := newOps
      tensors := st.tensors
      dispatches := g.dispatches.map fun _ => dispatchIds newOps
      idRemap := some (.lists (st.idRemap.items.mergeSort fun a b => a.1 ≤ b.1)) }

/-! ### What is checked -/

/-- The constituents of an op are a chain that ends in its outputs. -/
structure Chain (op : GraphOp) : Prop where
  /-- There are two at least. -/
  two : 2 ≤ op.subOps.length
  /-- Each reads the first output of the one before it. -/
  linked : op.subOps.IsChain fun a b => ∃ t ∈ a.outputs.head?, t ∈ b.inputs
  /-- The last one has the outputs of the op. -/
  outputs : op.subOps.getLast?.map GraphOp.outputs = some op.outputs
  /-- Each has a shape and a quantization. -/
  described : ∀ sub ∈ op.subOps, sub.shape.items ≠ [] ∧ sub.quant ≠ none

/-- No link is broken iff each constituent reads the first output of the one before it. -/
theorem brokenLink_eq_none_iff {i : ℕ} {subs : List GraphOp} :
    brokenLink i subs = none ↔ subs.IsChain fun a b => ∃ t ∈ a.outputs.head?, t ∈ b.inputs := by
  induction subs generalizing i with
  | nil => simp [brokenLink]
  | cons a rest ih =>
    cases rest with
    | nil => simp [brokenLink]
    | cons b rest =>
      rw [List.isChain_cons_cons, ← ih (i := i + 1), brokenLink]
      cases hhead : a.outputs.head? with
      | none => simp
      | some produced =>
        by_cases hmem : produced ∈ b.inputs
        · simp [hmem]
        · simp [hmem]

/-- The checks on one op. -/
theorem validateUnfuse_eq_ok_iff {op : GraphOp} {did : ℤ} {u : Unit} :
    validateUnfuse op did = .ok u ↔ Chain op := by
  unfold validateUnfuse
  rw [Fallible.ite_error_eq_ok_iff, Nat.not_lt]
  constructor
  · rintro ⟨htwo, h⟩
    split at h
    · cases h
    next hlink =>
      rw [Fallible.ite_error_eq_ok_iff, not_not] at h
      obtain ⟨houtputs, h⟩ := h
      split at h
      · split_ifs at h
      next hnone =>
        refine ⟨htwo, brokenLink_eq_none_iff.mp hlink, houtputs, fun sub hsub => ?_⟩
        have := List.findIdx?_eq_none_iff.mp hnone sub hsub
        simpa only [decide_eq_false_iff_not, not_or] using this
  · rintro ⟨htwo, hlink, houtputs, hdescribed⟩
    refine ⟨htwo, ?_⟩
    have hnone : (op.subOps.findIdx? fun sub => sub.shape.items = [] ∨ sub.quant = none) = none := by
      apply List.findIdx?_eq_none_iff.mpr
      intro sub hsub
      simpa only [decide_eq_false_iff_not, not_or] using hdescribed sub hsub
    rw [brokenLink_eq_none_iff.mpr hlink]
    simp only [houtputs, ne_eq, not_true_eq_false, if_false, hnone]

/-- A hint is accepted iff it names fused ops, each of them once. -/
theorem checkTargets_eq_ok_iff {byId : PyDict ℤ GraphOp} {seen targets : List ℤ} {u : Unit} :
    checkTargets byId seen targets = .ok u ↔
      (∀ did ∈ targets, did ∉ seen ∧ ∃ op, byId.get? did = some op ∧ Chain op) ∧
        targets.Nodup := by
  induction targets generalizing seen with
  | nil => simp [checkTargets]
  | cons did rest ih =>
    rw [checkTargets, List.nodup_cons]
    simp only [List.mem_cons, forall_eq_or_imp]
    cases hget : byId.get? did with
    | none => simp
    | some op =>
      simp only [Fallible.ite_error_eq_ok_iff, Option.some.injEq, exists_eq_left']
      cases hvalid : validateUnfuse op did with
      | error e =>
        have hnot : ¬Chain op := by
          intro hchain
          have hok : validateUnfuse op did = .ok () := validateUnfuse_eq_ok_iff.mpr hchain
          rw [hvalid] at hok
          cases hok
        simp [hnot]
      | ok u =>
        have hchain := validateUnfuse_eq_ok_iff.mp hvalid
        simp only [ih, hchain, and_true, List.mem_cons, not_or]
        constructor
        · rintro ⟨hseen, hrest, hnd⟩
          exact ⟨⟨hseen, fun d hd => ⟨(hrest d hd).1.2, (hrest d hd).2⟩⟩,
            fun hmem => (hrest did hmem).1.1 rfl, hnd⟩
        · rintro ⟨⟨hseen, hrest⟩, hnot, hnd⟩
          refine ⟨hseen, fun d hd => ⟨⟨?_, (hrest d hd).1⟩, (hrest d hd).2⟩, hnd⟩
          rintro rfl
          exact hnot hd

/-! ## What unfusing returns -/

open List Fallible

/-- What an op is replaced by, before it is numbered. -/
def piecesOf (targets : List ℤ) (op : GraphOp) : List GraphOp :=
  match op.dispatchId with
  | none => [op]
  | some did =>
    if did ∉ targets then [op]
    else op.subOps.zipIdx.map fun p => restoredPiece op did 0 p.1 p.2

/-- The ops that are returned. -/
def unfusedOps (g : Graph) (targets : List ℤ) : List GraphOp :=
  rebuildDependsOn (numberFrom 0 (g.ops.flatMap (piecesOf targets)))

/-! ### Numbering -/

/-- The constituents of an op are numbered one after the other. -/
private theorem numberFrom_zipIdx (op : GraphOp) (did : ℤ) (n s : ℕ) (subs : List GraphOp) :
    numberFrom (n + s) ((subs.zipIdx s).map fun p => restoredPiece op did 0 p.1 p.2) =
      (subs.zipIdx s).map fun p => restoredPiece op did n p.1 p.2 := by
  induction subs generalizing s with
  | nil => rfl
  | cons sub rest ih =>
    rw [zipIdx_cons, map_cons, map_cons, ← ih (s + 1)]
    rfl

theorem numberFrom_pieces (op : GraphOp) (did : ℤ) (n : ℕ) :
    numberFrom n (op.subOps.zipIdx.map fun p => restoredPiece op did 0 p.1 p.2) =
      op.subOps.zipIdx.map fun p => restoredPiece op did n p.1 p.2 :=
  numberFrom_zipIdx op did n 0 op.subOps

/-- Every constituent is a dispatch. -/
theorem length_dispatchIds_pieces (op : GraphOp) (did : ℤ) (n : ℕ) :
    (dispatchIds (op.subOps.zipIdx.map fun p => restoredPiece op did n p.1 p.2)).length =
      op.subOps.length := by
  have hids : ∀ l : List (GraphOp × ℕ),
      (dispatchIds (l.map fun p => restoredPiece op did n p.1 p.2)).length = l.length := by
    intro l
    induction l with
    | nil => rfl
    | cons p rest ih =>
      exact congrArg (· + 1) ih
  rw [hids, length_zipIdx]

/-! ### The rewriting pass -/

/-- Register the inner tensors of one op. -/
def registerOp (targets : List ℤ) (tensors : PyDict String TensorInfo) (op : GraphOp) :
    Except UnfuseError (PyDict String TensorInfo) :=
  match op.dispatchId with
  | none => .ok tensors
  | some did =>
    if did ∉ targets then .ok tensors
    else registerInternals (fusedShape tensors op) did op.subOps tensors

/-- The tables after the ops `done`. -/
structure Restored (g : Graph) (targets : List ℤ) (done : List GraphOp) (st : Restoration) :
    Prop where
  newOps : st.newOps = numberFrom 0 (done.flatMap (piecesOf targets))
  nextId : st.nextId = (dispatchIds (done.flatMap (piecesOf targets))).length
  tensors : done.foldlM (registerOp targets) g.tensors = .ok st.tensors
  /-- The new ids of a dispatch are those of its pieces. -/
  idRemap : ∀ d ids, st.idRemap.get? d = some ids → ∃ pre op post, done = pre ++ op :: post ∧
    op.dispatchId = some d ∧
    ids = dispatchIds (numberFrom (dispatchIds (pre.flatMap (piecesOf targets))).length
      (piecesOf targets op))
  /-- Every dispatch has new ids. -/
  domain : ∀ op ∈ done, ∀ d, op.dispatchId = some d → d ∈ st.idRemap.keys

section Pass

variable {g : Graph} {targets : List ℤ}

/-- What one op of the pass does to the tables. -/
theorem restoreOp_eq_ok_iff {st st' : Restoration} {op : GraphOp} :
    restoreOp targets st op = .ok st' ↔ ∃ tensors,
      registerOp targets st.tensors op = .ok tensors ∧
        st' = { newOps := st.newOps ++ numberFrom st.nextId (piecesOf targets op)
                tensors := tensors
                idRemap := match op.dispatchId with
                  | none => st.idRemap
                  | some did =>
                    st.idRemap.set did (dispatchIds (numberFrom st.nextId (piecesOf targets op)))
                nextId := st.nextId + (dispatchIds (piecesOf targets op)).length } := by
  cases hop : op.dispatchId with
  | none =>
    simp only [restoreOp, hop, registerOp, piecesOf, numberFrom, dispatchIds, Except.ok.injEq,
      filterMap_cons_none hop, filterMap_nil, length_nil, Nat.add_zero,
      exists_eq_left']
    exact eq_comm
  | some did =>
    by_cases hdid : did ∉ targets
    · simp only [restoreOp, hop, registerOp, piecesOf, if_pos hdid, numberFrom, Except.ok.injEq,
        exists_eq_left', dispatchIds, filterMap_cons_some hop, filterMap_nil,
        length_singleton]
      exact eq_comm
    · simp only [restoreOp, hop, registerOp, piecesOf, if_neg hdid, bind_eq_ok_iff,
        numberFrom_pieces, length_dispatchIds_pieces]
      constructor
      · rintro ⟨tensors, htensors, hret⟩
        cases hret
        exact ⟨tensors, htensors, rfl⟩
      · rintro ⟨tensors, htensors, rfl⟩
        exact ⟨tensors, htensors, rfl⟩

/-- One op of the pass. -/
private theorem Restored.step {done : List GraphOp} {op : GraphOp} {st st' : Restoration}
    (h : Restored g targets done st) (hstep : restoreOp targets st op = .ok st') :
    Restored g targets (done ++ [op]) st' := by
  obtain ⟨tensors, htensors, rfl⟩ := restoreOp_eq_ok_iff.mp hstep
  have hflat : (done ++ [op]).flatMap (piecesOf targets) =
      done.flatMap (piecesOf targets) ++ piecesOf targets op := by simp
  refine ⟨?_, ?_, ?_, ?_, ?_⟩
  · rw [hflat, numberFrom_append, Nat.zero_add, ← h.nextId, ← h.newOps]
  · rw [hflat, dispatchIds_append, length_append, ← h.nextId]
  · rw [foldlM_append, bind_eq_ok_iff]
    refine ⟨st.tensors, h.tensors, ?_⟩
    rw [foldlM_cons, htensors]
    rfl
  · intro d ids hget
    have hold : st.idRemap.get? d = some ids → ∃ pre op' post, done ++ [op] = pre ++ op' :: post ∧
        op'.dispatchId = some d ∧ ids = dispatchIds (numberFrom
          (dispatchIds (pre.flatMap (piecesOf targets))).length (piecesOf targets op')) := by
      intro hget
      obtain ⟨pre, op', post, hdone, hid, hids⟩ := h.idRemap d ids hget
      exact ⟨pre, op', post ++ [op], by rw [hdone]; simp, hid, hids⟩
    cases hop : op.dispatchId with
    | none =>
      simp only [hop] at hget
      exact hold hget
    | some did =>
      simp only [hop, PyDict.get?_set] at hget
      split_ifs at hget with hd
      · cases hget
        exact ⟨done, op, [], rfl, by rw [hop, hd], by rw [h.nextId]⟩
      · exact hold hget
  · intro op' hop' d hd
    cases hop : op.dispatchId with
    | none =>
      rcases mem_append.mp hop' with hmem | hlast
      · exact h.domain op' hmem d hd
      · rw [mem_singleton] at hlast
        rw [← hlast, hd] at hop
        cases hop
    | some did =>
      rw [PyDict.mem_keys_set]
      rcases mem_append.mp hop' with hmem | hlast
      · exact Or.inr (h.domain op' hmem d hd)
      · rw [mem_singleton] at hlast
        rw [← hlast, hd] at hop
        exact Or.inl (Option.some.inj hop)

/-- The tables after the pass. -/
theorem restored_of_pass {st : Restoration}
    (h : g.ops.foldlM (restoreOp targets) { tensors := g.tensors } = .ok st) :
    Restored g targets g.ops st := by
  have hinit : Restored g targets [] { tensors := g.tensors } :=
    ⟨rfl, rfl, rfl, fun d ids hget => (by cases hget), fun op hop => absurd hop not_mem_nil⟩
  exact foldlM_invariant (fun done op st st' hst hstep => hst.step hstep) hinit h

/-- The pass goes through iff the inner tensors can be registered. -/
theorem exists_pass_iff (ops : List GraphOp) (st : Restoration) :
    (∃ st', ops.foldlM (restoreOp targets) st = .ok st') ↔
      ∃ tensors, ops.foldlM (registerOp targets) st.tensors = .ok tensors := by
  induction ops generalizing st with
  | nil => exact iff_of_true ⟨st, rfl⟩ ⟨st.tensors, rfl⟩
  | cons op rest ih =>
    simp only [foldlM_cons, bind_eq_ok_iff]
    constructor
    · rintro ⟨st', mid, hmid, hrest⟩
      obtain ⟨tensors, htensors, rfl⟩ := restoreOp_eq_ok_iff.mp hmid
      obtain ⟨final, hfinal⟩ := (ih _).mp ⟨st', hrest⟩
      exact ⟨final, tensors, htensors, hfinal⟩
    · rintro ⟨final, tensors, htensors, hfinal⟩
      obtain ⟨mid, hmid, htables⟩ : ∃ mid, restoreOp targets st op = .ok mid ∧
          mid.tensors = tensors := ⟨_, restoreOp_eq_ok_iff.mpr ⟨tensors, htensors, rfl⟩, rfl⟩
      obtain ⟨st', hst'⟩ := (ih mid).mpr ⟨final, by rw [htables]; exact hfinal⟩
      exact ⟨st', mid, hmid, hst'⟩

end Pass

/-- A hint is applied iff it names fused ops, each of them once, whose inner tensors can be
registered. What is returned are the pieces, numbered, with rebuilt dependencies. -/
theorem applyUnfuseHint_eq_ok_iff {g : Graph} {targets : List ℤ} {model : Option String}
    (hne : targets ≠ []) {out : Graph} :
    applyUnfuseHint g targets model = .ok out ↔
      (∀ did ∈ targets, ∃ op, (opsById g.ops).get? did = some op ∧ Chain op) ∧ targets.Nodup ∧
        ∃ st, g.ops.foldlM (restoreOp targets) { tensors := g.tensors } = .ok st ∧
          out = { g with
            name := (model.filter (· ≠ "")).getD g.name
            ops := unfusedOps g targets
            tensors := st.tensors
            dispatches := g.dispatches.map fun _ => dispatchIds (unfusedOps g targets)
            idRemap := some (.lists (st.idRemap.items.mergeSort fun a b => a.1 ≤ b.1)) } := by
  unfold applyUnfuseHint
  rw [if_neg hne]
  simp only [bind_eq_ok_iff, checkTargets_eq_ok_iff, not_mem_nil, not_false_eq_true, true_and]
  constructor
  · rintro ⟨-, ⟨hchain, hnd⟩, st, hst, hret⟩
    cases hret
    refine ⟨hchain, hnd, st, hst, ?_⟩
    rw [unfusedOps, (restored_of_pass hst).newOps]
  · rintro ⟨hchain, hnd, st, hst, rfl⟩
    refine ⟨(), ⟨hchain, hnd⟩, st, hst, ?_⟩
    rw [unfusedOps, (restored_of_pass hst).newOps]
    rfl

/-! ## Order after unfusing -/

open Relation EdgeList

/-! ### Pieces and their tags -/

/-- The pieces of an op, under the dispatch that they descend from and their numbers. -/
def taggedPieces (targets : List ℤ) (op : GraphOp) : List ((ℤ × ℕ) × GraphOp) :=
  match op.dispatchId with
  | none => []
  | some did => (piecesOf targets op).zipIdx.map fun p => ((did, p.2), p.1)

/-- The pieces of a graph. -/
def pieceTable (targets : List ℤ) (ops : List GraphOp) : List ((ℤ × ℕ) × GraphOp) :=
  ops.flatMap (taggedPieces targets)

/-- The tags of the pieces. -/
def pieceTags (targets : List ℤ) (ops : List GraphOp) : List (ℤ × ℕ) :=
  (pieceTable targets ops).map Prod.fst

/-- The piece that writes a tensor last. -/
def writerOf (targets : List ℤ) (ops : List GraphOp) : PyDict String (ℤ × ℕ) :=
  PyDict.ofList ((pieceTable targets ops).flatMap fun p => p.2.outputs.map (·, p.1))

/-- `y` reads by name a tensor that `x` writes last. -/
def ReadsByName (targets : List ℤ) (ops : List GraphOp) (x y : ℤ × ℕ) : Prop :=
  ∃ p ∈ pieceTable targets ops, p.1 = y ∧ x ≠ y ∧
    ∃ t ∈ p.2.inputs, (writerOf targets ops).get? t = some x

/-- The tensors that a tensor consists of: a view has the elements of the tensor that it shows, and
the output of an op that was split has those of the tiles. -/
inductive NeedsTensor (ops : List GraphOp) : String → String → Prop
  /-- Itself. -/
  | self (t : String) : NeedsTensor ops t t
  /-- What a view shows. -/
  | view {v : GraphOp} {shown t t' : String} (hv : v ∈ ops) (hkind : v.op = "view")
      (hshown : (shown, t) ∈ v.inputs.zip v.outputs) (h : NeedsTensor ops shown t') :
      NeedsTensor ops t t'
  /-- A tile. -/
  | tile {op : GraphOp} {sf : SplitFrom} {t t' : String} (hop : op ∈ ops)
      (hsplit : op.splitFrom = some sf) (hout : t ++ ".tile_" ++ toString sf.tile ∈ op.outputs)
      (h : NeedsTensor ops (t ++ ".tile_" ++ toString sf.tile) t') : NeedsTensor ops t t'

/-- The dispatch `d` has become `n`, or `n` is one of its pieces. An empty hint changes nothing. -/
def DescendsFrom (targets : List ℤ) (out : Graph) (d n : ℤ) : Prop :=
  (targets = [] ∧ n = d) ∨ targets ≠ [] ∧ ∃ entries ids, out.idRemap = some (.lists entries) ∧
    (d, ids) ∈ entries ∧ n ∈ ids

/-- Every piece of a dependency that produces a tensor that an op needs is, directly or not, before
the pieces of the op. -/
def KeepsOrder (g : Graph) (targets : List ℤ) (out : Graph) : Prop :=
  ∀ p, ∀ op ∈ g.ops, ∀ c ∈ op.dispatchId, TransGen (Edge (dependencyEdges g.ops)) p c →
    ∀ a, DescendsFrom targets out p a →
      (∃ piece ∈ out.ops, piece.dispatchId = some a ∧
        ∃ t ∈ piece.outputs, ∃ t' ∈ op.inputs, NeedsTensor g.ops t' t) →
      ∀ b, DescendsFrom targets out c b → TransGen (Edge (dependencyEdges out.ops)) a b

/-- Whenever an op needs what a piece of a dependency produces, each of its own pieces reads by
name what the piece writes, or what a reader of that writes, and so on. -/
def ReadsKeepOrder (g : Graph) (targets : List ℤ) : Prop :=
  ∀ p, ∀ op ∈ g.ops, ∀ c ∈ op.dispatchId, TransGen (Edge (dependencyEdges g.ops)) p c →
    ∀ i piece, ((p, i), piece) ∈ pieceTable targets g.ops →
      (∃ t ∈ piece.outputs, ∃ t' ∈ op.inputs, NeedsTensor g.ops t' t) →
      ∀ j, (c, j) ∈ pieceTags targets g.ops →
        TransGen (ReadsByName targets g.ops) (p, i) (c, j)

section Table

variable {targets : List ℤ} {ops : List GraphOp} {op : GraphOp} {did n : ℤ} {x y : ℤ × ℕ}

/-- A tag names a dispatch. -/
private theorem mem_dispatchIds_of_tag {tag : ℤ × ℕ} (h : tag ∈ pieceTags targets ops) :
    tag.1 ∈ dispatchIds ops := by
  obtain ⟨p, hp, rfl⟩ := mem_map.mp h
  obtain ⟨op, hop, hmem⟩ := mem_flatMap.mp hp
  unfold taggedPieces at hmem
  cases hid : op.dispatchId with
  | none => simp [hid] at hmem
  | some did =>
    simp only [hid, mem_map] at hmem
    obtain ⟨q, -, rfl⟩ := hmem
    exact mem_filterMap.mpr ⟨op, hop, hid⟩

/-- The tags of one op count up. -/
private theorem map_fst_taggedPieces (hid : op.dispatchId = some did) :
    (taggedPieces targets op).map Prod.fst =
      (List.range (piecesOf targets op).length).map (did, ·) := by
  simp only [taggedPieces, hid, List.map_map]
  rw [List.range_eq_range', ← List.zipIdx_map_snd 0 (piecesOf targets op), List.map_map]
  rfl

/-- Distinct dispatches have distinct tags. -/
theorem nodup_pieceTags (hnd : (dispatchIds ops).Nodup) :
    (pieceTags targets ops).Nodup := by
  induction ops with
  | nil => exact nodup_nil
  | cons op rest ih =>
    have hrest := hnd.sublist ((sublist_cons_self op rest).filterMap GraphOp.dispatchId)
    rw [pieceTags, pieceTable, flatMap_cons, map_append]
    cases hid : op.dispatchId with
    | none =>
      have hnil : taggedPieces targets op = [] := by simp [taggedPieces, hid]
      rw [hnil]
      exact ih hrest
    | some did =>
      rw [map_fst_taggedPieces hid]
      refine List.Nodup.append ?_ (ih hrest) ?_
      · exact nodup_range.map fun i j h => (Prod.mk.inj h).2
      · intro tag hmem htag
        obtain ⟨i, -, rfl⟩ := mem_map.mp hmem
        rw [dispatchIds, filterMap_cons_some hid, nodup_cons] at hnd
        exact hnd.1 (mem_dispatchIds_of_tag htag)

/-- The pieces of a dispatch are dispatches. -/
private theorem dispatchId_piecesOf (hid : op.dispatchId = some did) :
    ∀ piece ∈ piecesOf targets op, piece.dispatchId ≠ none := by
  intro piece hpiece
  unfold piecesOf at hpiece
  simp only [hid] at hpiece
  split_ifs at hpiece
  · obtain ⟨q, -, rfl⟩ := mem_map.mp hpiece
    exact Option.some_ne_none _
  · obtain rfl := mem_singleton.mp hpiece
    simp [hid]

/-- The table has the pieces that are dispatches, in list order. -/
private theorem map_snd_pieceTable (ops : List GraphOp) :
    (pieceTable targets ops).map Prod.snd =
      (ops.flatMap (piecesOf targets)).filter fun op => op.dispatchId.isSome := by
  induction ops with
  | nil => rfl
  | cons op rest ih =>
    rw [pieceTable, flatMap_cons, map_append, flatMap_cons, filter_append, ← ih]
    congr 1
    cases hid : op.dispatchId with
    | none => simp [taggedPieces, piecesOf, hid]
    | some did =>
      have hall : (piecesOf targets op).filter (fun op => op.dispatchId.isSome) =
          piecesOf targets op := by
        apply filter_eq_self.mpr
        intro piece hpiece
        exact Option.isSome_iff_ne_none.mpr (dispatchId_piecesOf hid piece hpiece)
      rw [hall]
      simp only [taggedPieces, hid, List.map_map]
      exact List.zipIdx_map_fst 0 _

/-- The dispatches of a numbered list. -/
private theorem filter_numberFrom (n : ℕ) (l : List GraphOp) :
    (numberFrom n l).filter (fun op => op.dispatchId.isSome) =
      ((l.filter fun op => op.dispatchId.isSome).zipIdx n).map fun p =>
        { p.1 with dispatchId := some (p.2 : ℤ) } := by
  induction l generalizing n with
  | nil => rfl
  | cons op rest ih =>
    cases hid : op.dispatchId with
    | none => simp [numberFrom, hid, ih]
    | some did => simp [numberFrom, hid, ih]

/-- The producers are the dispatches that write. -/
private theorem producerOf_eq (ops : List GraphOp) :
    producerOf ops = PyDict.ofList ((ops.filter fun op => op.dispatchId.isSome).flatMap fun op =>
      op.outputs.map (·, op.dispatchId.getD 0)) := by
  unfold producerOf
  congr 1
  induction ops with
  | nil => rfl
  | cons op rest ih =>
    rw [flatMap_cons, ih]
    cases hid : op.dispatchId with
    | none => simp [hid]
    | some did => simp [hid]

/-- The new id of a tag. -/
private def tagId (targets : List ℤ) (ops : List GraphOp) (tag : ℤ × ℕ) : ℤ :=
  (pieceTags targets ops).idxOf tag

/-- Distinct tags have distinct ids. -/
private theorem tagId_inj (hx : x ∈ pieceTags targets ops)
    (h : tagId targets ops x = tagId targets ops y) : x = y :=
  (idxOf_inj hx).mp (Int.ofNat_inj.mp h)

/-- A writer is a piece. -/
private theorem mem_pieceTags_of_writerOf {t : String} (h : (writerOf targets ops).get? t = some x) :
    x ∈ pieceTags targets ops := by
  obtain ⟨p, hp, hmem⟩ := mem_flatMap.mp (PyDict.mem_of_get?_ofList h)
  obtain ⟨_, -, htag⟩ := mem_map.mp hmem
  exact mem_map.mpr ⟨p, hp, congrArg Prod.snd htag⟩

/-- Both ends of a read are pieces. -/
private theorem ReadsByName.mem_pieceTags (h : ReadsByName targets ops x y) :
    x ∈ pieceTags targets ops ∧ y ∈ pieceTags targets ops := by
  obtain ⟨p, hp, rfl, -, t, -, hx⟩ := h
  exact ⟨mem_pieceTags_of_writerOf hx, mem_map_of_mem hp⟩

variable {g : Graph} (hnd : (dispatchIds g.ops).Nodup)

include hnd

/-- The numbered list has the pieces of the table, under the ids of their tags. -/
private theorem filter_numbered :
    (numberFrom 0 (g.ops.flatMap (piecesOf targets))).filter (fun op => op.dispatchId.isSome) =
      (pieceTable targets g.ops).map fun p =>
        { p.2 with dispatchId := some (tagId targets g.ops p.1) } := by
  have htags : (pieceTags targets g.ops).Nodup := nodup_pieceTags hnd
  have hzip := PyList.zipIdx_eq_map_idxOf htags
  rw [filter_numberFrom, ← map_snd_pieceTable, List.zipIdx_map, hzip, List.map_map, List.map_map]
  rfl

/-- The dispatches of the numbered list. -/
private theorem mem_numbered_iff :
    op ∈ numberFrom 0 (g.ops.flatMap (piecesOf targets)) ∧ op.dispatchId = some n ↔
      ∃ p ∈ pieceTable targets g.ops, tagId targets g.ops p.1 = n ∧
        op = { p.2 with dispatchId := some n } := by
  have hmem : op ∈ numberFrom 0 (g.ops.flatMap (piecesOf targets)) ∧ op.dispatchId = some n ↔
      op ∈ (numberFrom 0 (g.ops.flatMap (piecesOf targets))).filter
        (fun op => op.dispatchId.isSome) ∧ op.dispatchId = some n := by
    rw [mem_filter, and_assoc]
    exact and_congr_right fun _ => ⟨fun h => ⟨by rw [h]; rfl, h⟩, And.right⟩
  rw [hmem, filter_numbered hnd, mem_map]
  constructor
  · rintro ⟨⟨p, hp, rfl⟩, hid⟩
    obtain rfl := Option.some.inj hid
    exact ⟨p, hp, rfl, rfl⟩
  · rintro ⟨p, hp, rfl, rfl⟩
    exact ⟨⟨p, hp, rfl⟩, rfl⟩

/-- The producers of the numbered list are the writers of the table. -/
private theorem get?_producerOf_numbered (t : String) :
    (producerOf (numberFrom 0 (g.ops.flatMap (piecesOf targets)))).get? t =
      ((writerOf targets g.ops).get? t).map (tagId targets g.ops) := by
  have hlist : (((pieceTable targets g.ops).flatMap fun p => p.2.outputs.map (·, p.1)).map
      fun q => (q.1, tagId targets g.ops q.2)) =
      (pieceTable targets g.ops).flatMap fun p =>
        p.2.outputs.map (·, tagId targets g.ops p.1) := by
    rw [map_flatMap]
    simp only [List.map_map]
    rfl
  rw [producerOf_eq, filter_numbered hnd, flatMap_map, writerOf, ← PyDict.get?_ofList_map, hlist]
  rfl

/-- The dispatches that are returned. -/
private theorem mem_unfusedOps_iff :
    op ∈ unfusedOps g targets ∧ op.dispatchId = some n ↔
      ∃ p ∈ pieceTable targets g.ops, tagId targets g.ops p.1 = n ∧
        op = { p.2 with
          dispatchId := some n
          dependsOn := dependsOnOf (numberFrom 0 (g.ops.flatMap (piecesOf targets))) p.2 n } := by
  constructor
  · rintro ⟨hout, hid⟩
    obtain ⟨op, hop, rfl⟩ := mem_map.mp hout
    cases hop' : op.dispatchId with
    | none => simp [hop'] at hid
    | some did =>
      simp only [hop'] at hid ⊢
      obtain rfl : did = n := Option.some.inj hid
      obtain ⟨p, hp, hp', rfl⟩ := (mem_numbered_iff hnd).mp ⟨hop, hop'⟩
      exact ⟨p, hp, hp', rfl⟩
  · rintro ⟨p, hp, rfl, rfl⟩
    obtain ⟨hop, hid⟩ := (mem_numbered_iff hnd).mpr ⟨p, hp, rfl, rfl⟩
    exact ⟨mem_map.mpr ⟨_, hop, rfl⟩, rfl⟩

/-- The dependencies that are rebuilt are the reads by name. -/
private theorem dependencyEdges_unfusedOps_iff {k : ℤ} :
    (k, n) ∈ dependencyEdges (unfusedOps g targets) ↔
      ∃ x y, ReadsByName targets g.ops x y ∧ tagId targets g.ops x = k ∧
        tagId targets g.ops y = n := by
  have hdeps : ∀ p : (ℤ × ℕ) × GraphOp,
      k ∈ dependsOnOf (numberFrom 0 (g.ops.flatMap (piecesOf targets))) p.2 n ↔
        ∃ t ∈ p.2.inputs, ∃ x, (writerOf targets g.ops).get? t = some x ∧
          tagId targets g.ops x = k ∧ k ≠ n := by
    intro p
    rw [dependsOnOf, PyList.mem_sortedSet, mem_filter, mem_filterMap, decide_eq_true_eq]
    constructor
    · rintro ⟨⟨t, ht, hget⟩, hne⟩
      rw [get?_producerOf_numbered hnd, Option.map_eq_some_iff] at hget
      obtain ⟨x, hx, hk⟩ := hget
      exact ⟨t, ht, x, hx, hk, hne⟩
    · rintro ⟨t, ht, x, hx, hk, hne⟩
      refine ⟨⟨t, ht, ?_⟩, hne⟩
      rw [get?_producerOf_numbered hnd, hx, Option.map_some, hk]
  rw [mem_dependencyEdges]
  constructor
  · rintro ⟨op, hop, hid, hdep⟩
    obtain ⟨p, hp, hp', rfl⟩ := (mem_unfusedOps_iff hnd).mp ⟨hop, hid⟩
    obtain ⟨t, ht, x, hx, hk, hne⟩ := (hdeps p).mp hdep
    refine ⟨x, p.1, ⟨p, hp, rfl, ?_, t, ht, hx⟩, hk, hp'⟩
    rintro rfl
    exact hne (hk.symm.trans hp')
  · rintro ⟨x, _, ⟨p, hp, rfl, hne, t, ht, hx⟩, hk, hn⟩
    obtain ⟨hop, hid⟩ := (mem_unfusedOps_iff hnd).mpr ⟨p, hp, hn, rfl⟩
    refine ⟨_, hop, hid, (hdeps p).mpr ⟨t, ht, x, hx, hk, fun heq => hne ?_⟩⟩
    exact tagId_inj (mem_pieceTags_of_writerOf hx) (hk.trans (heq.trans hn.symm))

/-- Paths of the returned graph are paths of reads. -/
private theorem transGen_unfusedOps_iff (hx : x ∈ pieceTags targets g.ops)
    (hy : y ∈ pieceTags targets g.ops) :
    TransGen (Edge (dependencyEdges (unfusedOps g targets))) (tagId targets g.ops x)
      (tagId targets g.ops y) ↔ TransGen (ReadsByName targets g.ops) x y := by
  constructor
  · intro hpath
    obtain ⟨x', y', z, w, hx', hy', hxz, hwy, hreads⟩ := Contraction.exists_of_transGen_image
      (fun k n => dependencyEdges_unfusedOps_iff hnd)
      (fun hxy hzw heq => tagId_inj (ReadsByName.mem_pieceTags hxy).2 heq) hpath
    obtain rfl := tagId_inj hx hx'.symm
    obtain rfl := tagId_inj hy hy'.symm
    exact hreads
  · exact Contraction.transGen_image fun k n => dependencyEdges_unfusedOps_iff hnd

end Table

/-! ### The pieces of the returned graph -/

section Returned

variable {g : Graph} {targets : List ℤ} {model : Option String} {out : Graph}

/-- There is an id for every tag. -/
private theorem length_dispatchIds_flatMap (ops : List GraphOp) :
    (dispatchIds (ops.flatMap (piecesOf targets))).length = (pieceTags targets ops).length := by
  have hlen : ∀ l : List GraphOp,
      (dispatchIds l).length = (l.filter fun op => op.dispatchId.isSome).length := by
    intro l
    induction l with
    | nil => rfl
    | cons op rest ih =>
      rw [dispatchIds] at ih ⊢
      cases hid : op.dispatchId with
      | none => simp [hid, ih]
      | some did => simp [hid, ih]
  rw [hlen, ← map_snd_pieceTable, pieceTags, length_map, length_map]

variable {d n : ℤ}

/-- The ids of a dispatch are those of its tags. -/
private theorem mem_dispatchIds_numbered {pre post : List GraphOp} {op : GraphOp}
    (hid : op.dispatchId = some d) (hnd : (dispatchIds (pre ++ op :: post)).Nodup) :
    n ∈ dispatchIds (numberFrom (dispatchIds (pre.flatMap (piecesOf targets))).length
        (piecesOf targets op)) ↔
      ∃ j, (d, j) ∈ pieceTags targets (pre ++ op :: post) ∧
        tagId targets (pre ++ op :: post) (d, j) = n := by
  have hmid : (dispatchIds (piecesOf targets op)).length = (piecesOf targets op).length := by
    have hlen := @length_dispatchIds_flatMap targets [op]
    rw [flatMap_singleton] at hlen
    rw [hlen, pieceTags, pieceTable, flatMap_singleton, map_fst_taggedPieces hid]
    simp
  have htags : pieceTags targets (pre ++ op :: post) = pieceTags targets pre ++
      ((List.range (piecesOf targets op).length).map (d, ·) ++ pieceTags targets post) := by
    rw [← map_fst_taggedPieces hid]
    simp [pieceTags, pieceTable]
  rw [dispatchIds, filterMap_append, filterMap_cons_some hid] at hnd
  have hpre : ∀ j, (d, j) ∉ pieceTags targets pre := fun j hj =>
    disjoint_of_nodup_append hnd (mem_dispatchIds_of_tag hj) mem_cons_self
  have hpost : ∀ j, (d, j) ∉ pieceTags targets post := fun j hj =>
    (nodup_cons.mp hnd.of_append_right).1 (mem_dispatchIds_of_tag hj)
  -- The position of a tag is the number of tags before the op, and the number of the piece.
  have hidx : ∀ j, j < (piecesOf targets op).length →
      (pieceTags targets (pre ++ op :: post)).idxOf (d, j) =
        (pieceTags targets pre).length + j := by
    intro j hj
    have hnodup : ((List.range (piecesOf targets op).length).map ((d, ·) : ℕ → ℤ × ℕ)).Nodup :=
      nodup_range.map fun i j h => (Prod.mk.inj h).2
    have hlen : j < ((List.range (piecesOf targets op).length).map ((d, ·) : ℕ → ℤ × ℕ)).length := by
      simpa using hj
    have hget := hnodup.idxOf_getElem j hlen
    rw [getElem_map, getElem_range] at hget
    rw [htags, idxOf_append_of_notMem (hpre j), idxOf_append_of_mem
      (mem_map.mpr ⟨j, mem_range.mpr hj, rfl⟩), hget]
  rw [dispatchIds_numberFrom, length_dispatchIds_flatMap, hmid, mem_map]
  constructor
  · rintro ⟨i, hi, rfl⟩
    rw [mem_range'_1] at hi
    have hj : i - (pieceTags targets pre).length < (piecesOf targets op).length := by omega
    refine ⟨i - (pieceTags targets pre).length, ?_, ?_⟩
    · rw [htags]
      exact mem_append_right _ (mem_append_left _ (mem_map.mpr ⟨_, mem_range.mpr hj, rfl⟩))
    · rw [tagId, hidx _ hj]
      omega
  · rintro ⟨j, hj, rfl⟩
    rw [htags, mem_append, mem_append] at hj
    obtain ⟨j', hj', heq⟩ := mem_map.mp ((hj.resolve_left (hpre j)).resolve_right (hpost j))
    obtain rfl := (Prod.mk.inj heq).2
    rw [mem_range] at hj'
    refine ⟨(pieceTags targets pre).length + j', ?_, ?_⟩
    · rw [mem_range'_1]
      omega
    · rw [tagId, hidx _ hj']

/-- What descends from a dispatch are its pieces. -/
private theorem descendsFrom_iff (hnd : (dispatchIds g.ops).Nodup) (hne : targets ≠ [])
    (hok : applyUnfuseHint g targets model = .ok out) :
    DescendsFrom targets out d n ↔
      ∃ j, (d, j) ∈ pieceTags targets g.ops ∧ tagId targets g.ops (d, j) = n := by
  obtain ⟨-, -, st, hst, rfl⟩ := (applyUnfuseHint_eq_ok_iff hne).mp hok
  have hrestored := restored_of_pass hst
  have hids : ∀ ids, st.idRemap.get? d = some ids → (n ∈ ids ↔
      ∃ j, (d, j) ∈ pieceTags targets g.ops ∧ tagId targets g.ops (d, j) = n) := by
    intro ids hget
    obtain ⟨pre, op, post, hops, hid, rfl⟩ := hrestored.idRemap d ids hget
    rw [hops] at hnd ⊢
    exact mem_dispatchIds_numbered hid hnd
  constructor
  · rintro (⟨hnil, -⟩ | ⟨-, entries, ids, hremap, hentry, hn⟩)
    · exact absurd hnil hne
    · cases hremap
      have hget := PyDict.mem_items_iff.mp ((mergeSort_perm _ _).mem_iff.mp hentry)
      exact (hids ids hget).mp hn
  · rintro ⟨j, hj, hn⟩
    obtain ⟨op, hop, hid⟩ := mem_filterMap.mp (mem_dispatchIds_of_tag hj)
    obtain ⟨ids, hget⟩ := PyDict.mem_keys_iff.mp (hrestored.domain op hop d hid)
    exact Or.inr ⟨hne, _, ids, rfl,
      (mergeSort_perm _ _).mem_iff.mpr (PyDict.mem_items_iff.mpr hget),
      (hids ids hget).mpr ⟨j, hj, hn⟩⟩

/-- Unfusing keeps the order iff the names of the tensors that are read and written do. -/
theorem applyUnfuseHint_keepsOrder_iff (hnd : (dispatchIds g.ops).Nodup)
    (hok : applyUnfuseHint g targets model = .ok out) :
    KeepsOrder g targets out ↔ targets = [] ∨ ReadsKeepOrder g targets := by
  by_cases hne : targets = []
  · subst hne
    obtain rfl : g = out := by
      unfold applyUnfuseHint at hok
      rw [if_pos rfl] at hok
      exact Except.ok.inj hok
    refine iff_of_true ?_ (Or.inl rfl)
    rintro p op _ c _ hpath a (⟨-, rfl⟩ | ⟨hne, -⟩) - b (⟨-, rfl⟩ | ⟨hne, -⟩)
    · exact hpath
    all_goals exact absurd rfl hne
  · have hops : out.ops = unfusedOps g targets := by
      obtain ⟨-, -, st, -, rfl⟩ := (applyUnfuseHint_eq_ok_iff hne).mp hok
      rfl
    rw [or_iff_right hne]
    constructor
    · intro h p op hop c hc hpath i piece hpiece ⟨t, ht, hneeds⟩ j hj
      have hi : (p, i) ∈ pieceTags targets g.ops := mem_map_of_mem hpiece
      obtain ⟨hmem, hid⟩ := (mem_unfusedOps_iff hnd).mpr ⟨((p, i), piece), hpiece, rfl, rfl⟩
      have hbefore := h p op hop c hc hpath _ ((descendsFrom_iff hnd hne hok).mpr ⟨i, hi, rfl⟩)
        ⟨_, hops ▸ hmem, hid, t, ht, hneeds⟩ _ ((descendsFrom_iff hnd hne hok).mpr ⟨j, hj, rfl⟩)
      rw [hops] at hbefore
      exact (transGen_unfusedOps_iff hnd hi hj).mp hbefore
    · intro h p op hop c hc hpath a ha ⟨piece, hpiece, hid, t, ht, hneeds⟩ b hb
      obtain ⟨i, hi, rfl⟩ := (descendsFrom_iff hnd hne hok).mp ha
      obtain ⟨j, hj, rfl⟩ := (descendsFrom_iff hnd hne hok).mp hb
      obtain ⟨⟨tag, q⟩, hq, htag, rfl⟩ := (mem_unfusedOps_iff hnd).mp ⟨hops ▸ hpiece, hid⟩
      obtain rfl : tag = (p, i) := tagId_inj (mem_map_of_mem hq) htag
      rw [hops]
      exact (transGen_unfusedOps_iff hnd hi hj).mpr
        (h p op hop c hc hpath i q hq ⟨t, ht, hneeds⟩ j hj)

end Returned

/-! ### A view behind a fused op -/

/-- A convolution, a batch normalization and an activation in one op. -/
def convBnSilu : GraphOp where
  op := "conv2d_batchnorm2d_silu_s8"
  name := "l0"
  inputs := ["x"]
  outputs := ["y_act"]
  subOps := [
    { op := "conv2d_s8", name := "l0.conv", inputs := ["x"], outputs := ["y_conv"]
      weight := some "w", bias := some "b"
      shape := PyDict.ofList [("N", 1), ("IC", 3), ("IH", 8), ("IW", 8), ("OC", 4), ("OH", 4),
        ("OW", 4), ("KH", 3), ("KW", 3), ("SH", 2), ("SW", 2), ("PH", 1), ("PW", 1)]
      quant := some { params := [("output_multiplier", 1), ("output_shift", 0)] } },
    { op := "batchnorm2d_s8", name := "l0.bn", inputs := ["y_conv"], outputs := ["y_bn"]
      weight := some "s", bias := some "o"
      shape := PyDict.ofList [("N", 1), ("C", 4), ("H", 4), ("W", 4)]
      quant := some { scaleIn := some (1 / 4), scaleOut := some (1 / 2) } },
    { op := "silu_s8", name := "l0.act", inputs := ["y_bn"], outputs := ["y_act"]
      shape := PyDict.ofList [("n", 64)]
      quant := some { scaleIn := some (1 / 2), scaleOut := some (3 / 4) } }]

/-- A graph in which `reader` follows the fused op, behind the views `views`. -/
def convReader (views : List GraphOp) (reader : String) : Graph where
  name := "probe"
  ops := annotateGraphOps (convBnSilu :: views ++
    [{ op := "relu_s8", name := "l1", inputs := [reader], outputs := ["z"]
       shape := PyDict.ofList [("n", 64)] }])
  modelOutputs := ["z"]
  tensors := PyDict.ofList [("x", { shape := [1, 3, 8, 8], quant := some (1, 0) }),
    ("y_act", { shape := [1, 4, 4, 4], quant := some (3 / 4, 0) }),
    ("z", { shape := [1, 64], quant := some (3 / 4, 0) })]

/-- `y_act`, flattened. -/
def flatten : GraphOp where
  op := "view"
  name := "flatten"
  inputs := ["y_act"]
  outputs := ["flat"]

/-- Without views and tiles, a tensor consists of itself. -/
private theorem NeedsTensor.eq {ops : List GraphOp} {t t' : String} (h : NeedsTensor ops t t')
    (hops : ∀ op ∈ ops, op.op ≠ "view" ∧ op.splitFrom = none) : t' = t := by
  cases h with
  | self => rfl
  | view hv hkind => exact absurd hkind (hops _ hv).1
  | tile hop hsplit => simp [(hops _ hop).2] at hsplit

/-- A reader that reads the fused op by name stays behind it. -/
theorem directReader_keepsOrder :
    ∃ out, applyUnfuseHint (convReader [] "y_act") [0] none = .ok out ∧
      KeepsOrder (convReader [] "y_act") [0] out := by
  have hnd : (dispatchIds (convReader [] "y_act").ops).Nodup := by decide
  refine ⟨_, rfl, (applyUnfuseHint_keepsOrder_iff hnd rfl).mpr (Or.inr ?_)⟩
  intro p op hop c hc hpath i piece hpiece ⟨t, ht, t', ht', hneeds⟩ j hj
  have hplain : ∀ op ∈ (convReader [] "y_act").ops, op.op ≠ "view" ∧ op.splitFrom = none := by
    decide
  obtain rfl := hneeds.eq hplain
  have hedges : dependencyEdges (convReader [] "y_act").ops = [(0, 1)] := by decide
  rw [hedges] at hpath
  obtain ⟨k, -, hlast⟩ := TransGen.tail'_iff.mp hpath
  obtain ⟨k', hfirst, -⟩ := TransGen.head'_iff.mp hpath
  obtain rfl : c = 1 := (Prod.mk.inj (mem_singleton.mp hlast)).2
  obtain rfl : p = 0 := (Prod.mk.inj (mem_singleton.mp hfirst)).1
  -- The reader reads one tensor, which the last piece writes.
  have hinputs : ∀ op ∈ (convReader [] "y_act").ops, op.dispatchId = some 1 →
      op.inputs = ["y_act"] := by decide
  rw [hinputs op hop hc, mem_singleton] at ht'
  subst ht'
  have hwriter : ∀ q ∈ pieceTable [0] (convReader [] "y_act").ops, q.1.1 = 0 →
      "y_act" ∈ q.2.outputs → q.1 = (0, 2) := by decide
  have hreader : ∀ tag ∈ pieceTags [0] (convReader [] "y_act").ops, tag.1 = 1 → tag = (1, 0) := by
    decide
  obtain rfl : i = 2 := (Prod.mk.inj (hwriter _ hpiece rfl ht)).2
  obtain rfl : j = 0 := (Prod.mk.inj (hreader _ hj rfl)).2
  apply TransGen.single
  unfold ReadsByName
  decide

/-- Behind a view, the reader does not wait for what it reads. -/
theorem viewReader_loses_order : ¬∀ (g : Graph) (ops : List GraphOp) (targets : List ℤ)
    (model : Option String) (out : Graph), g.ops = annotateGraphOps ops →
      applyUnfuseHint g targets model = .ok out → KeepsOrder g targets out := by
  intro h
  have hnd : (dispatchIds (convReader [flatten] "flat").ops).Nodup := by decide
  have hne : ([0] : List ℤ) ≠ [] := cons_ne_nil _ _
  obtain ⟨out, hok⟩ : ∃ out, applyUnfuseHint (convReader [flatten] "flat") [0] none = .ok out :=
    ⟨_, rfl⟩
  have hkeeps := h _ _ [0] none out rfl hok
  have hops : out.ops = unfusedOps (convReader [flatten] "flat") [0] := by
    obtain ⟨-, -, st, -, rfl⟩ := (applyUnfuseHint_eq_ok_iff hne).mp hok
    rfl
  have hdescends : ∀ tag ∈ pieceTags [0] (convReader [flatten] "flat").ops,
      DescendsFrom [0] out tag.1 (tagId [0] (convReader [flatten] "flat").ops tag) :=
    fun tag htag => (descendsFrom_iff hnd hne hok).mpr ⟨tag.2, htag, rfl⟩
  have hpath : TransGen (Edge (dependencyEdges (convReader [flatten] "flat").ops)) 0 1 := by
    apply TransGen.single
    unfold Edge
    decide
  obtain ⟨reader, hreader, hid, hinputs⟩ : ∃ op ∈ (convReader [flatten] "flat").ops,
      op.dispatchId = some 1 ∧ op.inputs = ["flat"] := by decide
  obtain ⟨view, hview, hkind, hshown⟩ : ∃ op ∈ (convReader [flatten] "flat").ops,
      op.op = "view" ∧ ("y_act", "flat") ∈ op.inputs.zip op.outputs := by decide
  have hwrites : ∃ piece ∈ out.ops, piece.dispatchId = some 2 ∧ "y_act" ∈ piece.outputs := by
    rw [hops]
    decide
  obtain ⟨piece, hpiece, hid', ht⟩ := hwrites
  have hbefore := hkeeps 0 reader hreader 1 hid hpath 2 (hdescends (0, 2) (by decide))
    ⟨piece, hpiece, hid', "y_act", ht, "flat", by simp [hinputs],
      .view hview hkind hshown (.self _)⟩ 3 (hdescends (1, 0) (by decide))
  -- Nothing is before the reader.
  obtain ⟨k, -, hlast⟩ := TransGen.tail'_iff.mp hbefore
  have hedges : dependencyEdges out.ops = [(0, 1), (1, 2)] := by
    rw [hops]
    decide
  unfold Edge at hlast
  simp [hedges] at hlast

end ModelBlaster

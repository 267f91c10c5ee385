import ModelBlaster.Skeleton.Weights

/-!
# Splitting

The rewriter that replaces an op by tiles. A linear op is split along its output features, a conv
along its output channels, and so is a fused conv, whose sizes its constituents have. A tile is a
copy of the op with a part of its outputs. Dispatch ids are assigned anew, and whatever waited for
the op waits for all of its tiles.

## Main definitions

* `Expanded`: the tables of such a pass;
* `splitPlain`, `splitFusedConvS8`: the tiles of an op;
* `splitOp`: one op of the rewriting pass;
* `applySplitHint`: the rewriter;
* `Graph.block`: what a dispatch has become;
* `Renumbered`: what splitting does to dispatches, their dependencies and their order.

## Main results

* `Expanded.view`, `Expanded.dispatch`: one op of the pass;
* `Expanded.get?_idRemap`: what `id_remap` says after the pass;
* `renumbered_of_applySplitHint`: splitting does so, if there is something to split.
-/

/-! ## Rewriting passes that expand ops -/

namespace ModelBlaster

open List

/-- The tables after the ops `done`, when each of them becomes its `pieces`. -/
structure Expanded (pieces : GraphOp → List GraphOp) (done newOps : List GraphOp)
    (remap : PyDict ℤ (List ℤ)) (n : ℕ) : Prop where
  newOps : newOps = numberFrom 0 (done.flatMap pieces)
  nextId : n = (dispatchIds (done.flatMap pieces)).length
  /-- The new ids of a dispatch are those of its pieces. -/
  idRemap : ∀ d ids, remap.get? d = some ids → ∃ pre op post, done = pre ++ op :: post ∧
    op.dispatchId = some d ∧
    ids = dispatchIds (numberFrom (dispatchIds (pre.flatMap pieces)).length (pieces op))
  /-- Every dispatch has new ids. -/
  domain : ∀ op ∈ done, ∀ d, op.dispatchId = some d → d ∈ remap.keys

section
variable {pieces : GraphOp → List GraphOp} {done newOps : List GraphOp}
  {remap : PyDict ℤ (List ℤ)} {n : ℕ}

theorem expanded_nil : Expanded pieces [] [] PyDict.empty 0 :=
  ⟨rfl, rfl, fun _ _ hget => (by cases hget), fun _ hop => absurd hop not_mem_nil⟩

/-- An op without a dispatch id stays as it is. -/
theorem Expanded.view (h : Expanded pieces done newOps remap n) {op : GraphOp}
    (hop : op.dispatchId = none) (hpieces : pieces op = [op]) :
    Expanded pieces (done ++ [op]) (newOps ++ [op]) remap n := by
  have hflat : (done ++ [op]).flatMap pieces = done.flatMap pieces ++ [op] := by
    rw [flatMap_append, flatMap_singleton, hpieces]
  have hnone : dispatchIds [op] = [] := filterMap_cons_none hop
  refine ⟨?_, ?_, ?_, ?_⟩
  · rw [hflat, numberFrom_append, ← h.newOps]
    simp only [numberFrom, hop]
  · rw [hflat, dispatchIds_append, hnone, append_nil]
    exact h.nextId
  · intro d ids hget
    obtain ⟨pre, op', post, hdone, hid, hids⟩ := h.idRemap d ids hget
    exact ⟨pre, op', post ++ [op], by rw [hdone]; simp, hid, hids⟩
  · intro op' hop' d hd
    rcases mem_append.mp hop' with hmem | hlast
    · exact h.domain op' hmem d hd
    · rw [mem_singleton.mp hlast, hop] at hd
      cases hd

/-- The pieces of a dispatch are numbered. -/
theorem Expanded.dispatch (h : Expanded pieces done newOps remap n) {op : GraphOp} {did : ℤ}
    (hop : op.dispatchId = some did) :
    Expanded pieces (done ++ [op]) (newOps ++ numberFrom n (pieces op))
      (remap.set did (dispatchIds (numberFrom n (pieces op))))
      (n + (dispatchIds (pieces op)).length) := by
  have hflat : (done ++ [op]).flatMap pieces = done.flatMap pieces ++ pieces op := by
    rw [flatMap_append, flatMap_singleton]
  refine ⟨?_, ?_, ?_, ?_⟩
  · rw [hflat, numberFrom_append, Nat.zero_add, ← h.nextId, ← h.newOps]
  · rw [hflat, dispatchIds_append, length_append, ← h.nextId]
  · intro d ids hget
    rw [PyDict.get?_set] at hget
    split_ifs at hget with hd
    · cases hget
      exact ⟨done, op, [], rfl, by rw [hop, hd], by rw [h.nextId]⟩
    · obtain ⟨pre, op', post, hdone, hid, hids⟩ := h.idRemap d ids hget
      exact ⟨pre, op', post ++ [op], by rw [hdone]; simp, hid, hids⟩
  · intro op' hop' d hd
    rw [PyDict.mem_keys_set]
    rcases mem_append.mp hop' with hmem | hlast
    · exact .inr (h.domain op' hmem d hd)
    · rw [mem_singleton.mp hlast, hop] at hd
      exact .inl (Option.some.inj hd).symm

variable {post pre : List GraphOp} {d : ℤ} {op : GraphOp}

/-- With distinct dispatch ids, a dispatch stands at one place of a list. -/
theorem eq_of_split_at_dispatch {ops pre' post' : List GraphOp} {op' : GraphOp}
    (hnd : (dispatchIds ops).Nodup) (hops : ops = pre ++ op :: post)
    (hops' : ops = pre' ++ op' :: post') (hop : op.dispatchId = some d)
    (hop' : op'.dispatchId = some d) : pre = pre' ∧ op = op' := by
  -- In front of the dispatch, nothing has its id.
  have hfront : ∀ {pre post : List GraphOp} {op : GraphOp}, ops = pre ++ op :: post →
      op.dispatchId = some d → ops.takeWhile (fun x => x.dispatchId ≠ some d) = pre := by
    intro pre post op hops hop
    have hnot : ∀ x ∈ pre, x.dispatchId ≠ some d := by
      intro x hx hxd
      rw [hops, dispatchIds_append, nodup_append] at hnd
      exact hnd.2.2 d (mem_filterMap.mpr ⟨x, hx, hxd⟩) d
        (mem_filterMap.mpr ⟨op, mem_cons_self, hop⟩) rfl
    rw [hops, takeWhile_append_of_pos fun x hx => decide_eq_true (hnot x hx),
      takeWhile_cons_of_neg (by simpa using hop), append_nil]
  refine ⟨(hfront hops hop).symm.trans (hfront hops' hop'), ?_⟩
  exact eq_of_dispatchIds_nodup hnd (by rw [hops]; simp) (by rw [hops']; simp) hop hop'

/-- What `id_remap` says: the new ids of a dispatch are those of its pieces, numbered behind what
the ops before it have become. -/
theorem Expanded.get?_idRemap (h : Expanded pieces done newOps remap n)
    (hnd : (dispatchIds done).Nodup) (hdone : done = pre ++ op :: post)
    (hop : op.dispatchId = some d) :
    remap.get? d = some (dispatchIds
      (numberFrom (dispatchIds (pre.flatMap pieces)).length (pieces op))) := by
  obtain ⟨ids, hget⟩ := PyDict.mem_keys_iff.mp (h.domain op (by rw [hdone]; simp) d hop)
  obtain ⟨pre', op', post', hdone', hop', hids⟩ := h.idRemap d ids hget
  obtain ⟨rfl, rfl⟩ := eq_of_split_at_dispatch hnd hdone' hdone hop' hop
  rw [hget, hids]

end

/-- `SplitHintError`, by its cause. -/
inductive SplitHintError where
  /-- The graph has no such dispatch. -/
  | unknownId (did : ℤ)
  /-- Ops of this kind are not split. -/
  | notSplittable (did : ℤ) (kind : String)
  /-- There are to be fewer than two tiles. -/
  | tooFewSplits (n : ℤ)
  /-- The tiles would not be equal. -/
  | doesNotDivide (kind : String) (size n : ℕ)
  /-- A fused op has no conv with a shape. -/
  | noConvShape (did : Option ℤ) (kind : String)
deriving DecidableEq, Repr

/-- How the rewriter fails. -/
inductive SplitError where
  /-- The hint is refused. -/
  | hint (e : SplitHintError)
  /-- A table has no such key. -/
  | keyError (key : String)
  /-- The op has no outputs. -/
  | indexError
  /-- A count of elements is divided by no channels. -/
  | zeroDivision
deriving DecidableEq, Repr

/-- An entry of `split_ops`. -/
structure SplitSpec where
  /-- The dispatch that is to be split. -/
  op : ℤ
  /-- The number of tiles. -/
  nSplits : ℤ := 2
deriving DecidableEq, Repr

/-! ### Tiles -/

/-- `f"{base}.tile_{t}"` -/
def tileName (base : String) (t : ℕ) : String := base ++ ".tile_" ++ toString t

/-- A size of a shape. -/
def sizeAt (shape : PyDict String ℕ) (key : String) : Except SplitError ℕ :=
  match shape.get? key with
  | some n => .ok n
  | none => .error (.keyError key)

/-- `op["outputs"][0]` -/
def firstOutput (op : GraphOp) : Except SplitError String :=
  match op.outputs.head? with
  | some out => .ok out
  | none => .error .indexError

/-- What every tile of an op has of its own. -/
def asTile (op : GraphOp) (axis : SplitAxis) (out : String) (n width t : ℕ) : GraphOp :=
  { op with
    outputs := [tileName out t]
    name := tileName op.name t
    splitFrom := some ⟨op.dispatchId.getD 0, t, n, axis, width, t * width⟩ }

/-- A tile of an op with a shape of its own. -/
def plainTile (key : String) (axis : SplitAxis) (op : GraphOp) (out : String) (n width t : ℕ) :
    GraphOp :=
  { asTile op axis out n width t with shape := op.shape.set key width }

/-- The tiles of an op with a shape of its own, along the size `key`. -/
def splitPlain (key : String) (axis : SplitAxis) (op : GraphOp) (n : ℕ) :
    Except SplitError (List GraphOp) := do
  let size ← sizeAt op.shape key
  if size % n ≠ 0 then .error (.hint (.doesNotDivide op.op size n))
  else
    let out ← firstOutput op
    return (List.range n).map (plainTile key axis op out n (size / n))

/-- `_split_linear_s8` -/
def splitLinearS8 : GraphOp → ℕ → Except SplitError (List GraphOp) := splitPlain "N" .N

/-- `_split_conv2d_s8` -/
def splitConv2dS8 : GraphOp → ℕ → Except SplitError (List GraphOp) := splitPlain "OC" .OC

/-- `_narrow_sub_shape`: a conv calls its channels `OC`, a batchnorm `C`, and an activation counts
elements. -/
def narrowSubShape (sub : GraphOp) (fullOc tileOc : ℕ) : GraphOp :=
  if sub.shape.get? "OC" = some fullOc then { sub with shape := sub.shape.set "OC" tileOc }
  else if sub.shape.get? "C" = some fullOc then { sub with shape := sub.shape.set "C" tileOc }
  else
    match sub.shape.get? "n" with
    | some n =>
      if 0 < n ∧ n % fullOc = 0 then { sub with shape := sub.shape.set "n" (n / fullOc * tileOc) }
      else sub
    | none => sub

/-- A constituent with a count of elements, which is divided by the channels. -/
def countsElements (fullOc : ℕ) (sub : GraphOp) : Bool :=
  sub.shape.get? "OC" ≠ some fullOc ∧ sub.shape.get? "C" ≠ some fullOc ∧
    0 < (sub.shape.get? "n").getD 0

/-- A constituent of a tile. The tensors between constituents get names of the tile. -/
def subTile (internal : List String) (fullOc tileOc t : ℕ) (sub : GraphOp) : GraphOp :=
  let rename := fun name => if name ∈ internal then tileName name t else name
  narrowSubShape { sub with inputs := sub.inputs.map rename, outputs := sub.outputs.map rename }
    fullOc tileOc

/-- A tile of a fused conv. -/
def fusedTile (op : GraphOp) (out : String) (fullOc n t : ℕ) : GraphOp :=
  let internal := op.subOps.flatMap GraphOp.outputs
  { asTile op .OC out n (fullOc / n) t with
    subOps := op.subOps.map (subTile internal fullOc (fullOc / n) t) }

/-- `_split_fused_conv_s8` -/
def splitFusedConvS8 (op : GraphOp) (n : ℕ) : Except SplitError (List GraphOp) :=
  match op.subOps.find? fun sub => sub.isConv2d ∧ sub.shape.items ≠ [] with
  | none => .error (.hint (.noConvShape op.dispatchId op.op))
  | some conv => do
    let fullOc ← sizeAt conv.shape "OC"
    if fullOc % n ≠ 0 then .error (.hint (.doesNotDivide op.op fullOc n))
    else
      let out ← firstOutput op
      if fullOc = 0 ∧ op.subOps.any (countsElements fullOc) then .error .zeroDivision
      else return (List.range n).map (fusedTile op out fullOc n)

/-- `_SPLITTABLE` -/
def splitterOf (kind : String) : Option (GraphOp → ℕ → Except SplitError (List GraphOp)) :=
  if kind = "linear_s8" then some splitLinearS8
  else if kind = "conv2d_s8" then some splitConv2dS8
  else if kind = "conv2d_batchnorm2d_s8" ∨ kind = "conv2d_batchnorm2d_silu_s8" then
    some splitFusedConvS8
  else none

/-! ### Tensors -/

/-- `_register_tile_tensors` -/
def registerTileTensors (tensors : PyDict String TensorInfo) (op : GraphOp) (n width : ℕ)
    (axis : SplitAxis) : PyDict String TensorInfo :=
  let out := op.outputs.headD ""
  match tensors.get? out with
  | none => tensors
  | some parent =>
    if parent.shape = [] then tensors
    else
      -- Channels are the second axis of four, features the last one.
      let shape := if axis = .OC ∧ 4 ≤ parent.shape.length then parent.shape.set 1 width
        else parent.shape.set (parent.shape.length - 1) width
      (List.range n).foldl (fun tensors t =>
        if tileName out t ∈ tensors.keys then tensors
        else tensors.set (tileName out t) { parent with shape := shape }) tensors

/-! ### The rewriter -/

/-- The tables of the rewriting pass. -/
structure Splitting where
  /-- `new_ops` -/
  newOps : List GraphOp := []
  /-- `tensors` -/
  tensors : PyDict String TensorInfo
  /-- `id_remap` -/
  idRemap : PyDict ℤ (List ℤ) := PyDict.empty
  /-- `next_new_id` -/
  nextId : ℕ := 0

/-- The ops that an op becomes: its tiles, or itself. -/
def splitInto (targets : PyDict ℤ ℕ) (op : GraphOp) : Except SplitError (List GraphOp) :=
  match op.dispatchId.bind targets.get?, splitterOf op.op with
  | some n, some splitter => splitter op n
  | some _, none => .error (.keyError op.op)
  | none, _ => .ok [op]

/-- The tensors of the tiles of an op. -/
def registerPieces (tensors : PyDict String TensorInfo) (op : GraphOp) (pieces : List GraphOp) :
    PyDict String TensorInfo :=
  match pieces.head?.bind GraphOp.splitFrom with
  | some sf => if 0 < sf.width then registerTileTensors tensors op sf.nSplits sf.width sf.axis
    else tensors
  | none => tensors

/-- Rewriting pass, one op. -/
def splitOp (targets : PyDict ℤ ℕ) (st : Splitting) (op : GraphOp) :
    Except SplitError Splitting :=
  match op.dispatchId with
  | none => .ok { st with newOps := st.newOps ++ [op] }
  | some did => do
    let pieces ← splitInto targets op
    let numbered := numberFrom st.nextId pieces
    return { newOps := st.newOps ++ numbered
             tensors := if did ∈ targets.keys then registerPieces st.tensors op pieces
               else st.tensors
             idRemap := st.idRemap.set did (dispatchIds numbered)
             nextId := st.nextId + (dispatchIds numbered).length }

/-- Whatever waited for an op waits for all that it became. -/
def rewireDependsOn (idRemap : PyDict ℤ (List ℤ)) (op : GraphOp) : GraphOp :=
  match op.dispatchId with
  | none => op
  | some _ => { op with
      dependsOn := PyList.orderedUnique (op.dependsOn.flatMap fun d => (idRemap.get? d).getD []) }

/-- The checks on one entry of the hint. -/
def checkSplit (byId : PyDict ℤ GraphOp) (spec : SplitSpec) : Except SplitError Unit :=
  match byId.get? spec.op with
  | none => .error (.hint (.unknownId spec.op))
  | some op =>
    if splitterOf op.op = none then .error (.hint (.notSplittable spec.op op.op))
    else if spec.nSplits < 2 then .error (.hint (.tooFewSplits spec.nSplits))
    else .ok ()

/-- `target_ids`: of two entries for one dispatch, the last one counts. -/
def splitTargets (hint : List SplitSpec) : PyDict ℤ ℕ :=
  PyDict.ofList (hint.map fun spec => (spec.op, spec.nSplits.toNat))

/-- `apply_split_hint` -/
def applySplitHint (g : Graph) (hint : List SplitSpec) : Except SplitError Graph :=
  if hint = [] then .ok g
  else do
    hint.forM (checkSplit (opsById g.ops))
    let st ← g.ops.foldlM (splitOp (splitTargets hint)) { tensors := g.tensors }
    let newOps := st.newOps.map (rewireDependsOn st.idRemap)
    return { g with
      ops := newOps
      tensors := st.tensors
      dispatches := g.dispatches.map fun _ => dispatchIds newOps
      idRemap := some (.lists (st.idRemap.items.mergeSort fun a b => a.1 ≤ b.1)) }

/-! ## The numbers of tiles -/

open Fallible

/-! ### What splitting does -/

/-- The entry of a dispatch in `id_remap`. -/
def Graph.remapped (out : Graph) (did : ℤ) : Option (List ℤ) :=
  match out.idRemap with
  | some (.lists entries) => entries.lookup did
  | _ => none

/-- The new ids of a dispatch. -/
def Graph.block (out : Graph) (did : ℤ) : List ℤ := (out.remapped did).getD []

/-- The ops that a dispatch has become. -/
def Graph.blockOps (out : Graph) (did : ℤ) : List GraphOp :=
  out.ops.filter fun op => op.dispatchId.any fun n => n ∈ out.block did

/-- The number of ops that a dispatch becomes. Of several specs for it the last one counts. -/
def pieceCount (hint : List SplitSpec) (did : ℤ) : ℕ :=
  ((hint.filter fun spec => spec.op = did).getLast?.map fun spec => spec.nSplits.toNat).getD 1

/-- The axis along which an op is split, with its size. -/
def splitSize (op : GraphOp) : Option (SplitAxis × ℕ) :=
  if op.op = "linear_s8" then (op.shape.get? "N").map (.N, ·)
  else if op.op = "conv2d_s8" then (op.shape.get? "OC").map (.OC, ·)
  else
    (op.subOps.find? fun sub => sub.isConv2d ∧ sub.shape.items ≠ []).bind fun conv =>
      (conv.shape.get? "OC").map (.OC, ·)

/-- The outputs that a tile computes. -/
def SplitFrom.range (tile : SplitFrom) : List ℕ := List.range' tile.offset tile.width

/-- The ops are tiles of a dispatch: they are numbered, and have the outputs between them, in
order. -/
def TilesOf (op : GraphOp) (did : ℤ) (n : ℕ) (tiles : List GraphOp) : Prop :=
  ∃ axis size, splitSize op = some (axis, size) ∧ ∃ origins : List SplitFrom,
    tiles.map GraphOp.splitFrom = origins.map some ∧
      (∀ (t : ℕ) (origin : SplitFrom), origins[t]? = some origin →
        origin.opId = did ∧ origin.tile = t ∧ origin.nSplits = n ∧ origin.axis = axis) ∧
      origins.length = n ∧ origins.flatMap SplitFrom.range = List.range size

/-- The dependencies that exist are listed in front of their dependents. -/
def TopologicallyOrdered (ops : List GraphOp) : Prop :=
  ∀ pre op post, ops = pre ++ op :: post → op.dispatchId ≠ none → ∀ dep ∈ op.dependsOn,
    dep ∈ dispatchIds ops → dep ∈ dispatchIds pre

/-- What splitting does to dispatches, their dependencies and their order. -/
structure Renumbered (g : Graph) (hint : List SplitSpec) (out : Graph) : Prop where
  /-- The dispatches of the graph have new ids, and nothing else has. -/
  domain : ∀ did, (out.remapped did).isSome ↔ did ∈ dispatchIds g.ops
  /-- One behind the other, the blocks are the numbers from `0` on. -/
  blocks : (dispatchIds g.ops).flatMap out.block =
    (List.range (dispatchIds out.ops).length).map fun i : ℕ => (i : ℤ)
  lengths : ∀ did ∈ dispatchIds g.ops,
    (out.block did).length = pieceCount hint did ∧ out.block did ≠ []
  /-- The new ids are those of the ops, in order. -/
  ids : dispatchIds out.ops = (List.range (dispatchIds out.ops).length).map fun i : ℕ => (i : ℤ)
  /-- The ops that a split op has become are its tiles. -/
  tiles : ∀ op ∈ g.ops, ∀ spec ∈ hint, op.dispatchId = some spec.op →
    TilesOf op spec.op (pieceCount hint spec.op) (out.blockOps spec.op)
  /-- The dependencies are the blocks of the old ones, without repetitions. -/
  dependsOn : ∀ op ∈ g.ops, ∀ did, op.dispatchId = some did → ∀ new ∈ out.blockOps did,
    new.dependsOn = PyList.orderedUnique (op.dependsOn.flatMap out.block)
  dispatches : out.dispatches = g.dispatches.map fun _ => dispatchIds out.ops
  ordered : TopologicallyOrdered g.ops → DependenciesEarlier out.ops

/-! ### Tiles -/

section
variable {op : GraphOp} {n : ℕ} {pieces : List GraphOp}

/-- A tile, before the dispatches are numbered: a copy of the op with a part of its outputs. -/
structure IsTile (op : GraphOp) (axis : SplitAxis) (n width t : ℕ) (tile : GraphOp) : Prop where
  dispatchId : tile.dispatchId = op.dispatchId
  dependsOn : tile.dependsOn = op.dependsOn
  splitFrom : tile.splitFrom = some ⟨op.dispatchId.getD 0, t, n, axis, width, t * width⟩

/-- The pieces of a split op are its tiles. -/
def Tiled (op : GraphOp) (n : ℕ) (pieces : List GraphOp) : Prop :=
  ∃ axis size tile, splitSize op = some (axis, size) ∧ size % n = 0 ∧
    pieces = (List.range n).map tile ∧ ∀ t, IsTile op axis n (size / n) t (tile t)

variable {key : String} {axis : SplitAxis}

theorem sizeAt_eq_ok {shape : PyDict String ℕ} {size : ℕ} (h : sizeAt shape key = .ok size) :
    shape.get? key = some size := by
  unfold sizeAt at h
  split at h
  next n hget =>
    rw [hget, Except.ok.inj h]
  next => cases h

theorem splitPlain_eq_ok (h : splitPlain key axis op n = .ok pieces) :
    ∃ size out, op.shape.get? key = some size ∧
      size % n = 0 ∧ pieces = (List.range n).map (plainTile key axis op out n (size / n)) := by
  obtain ⟨size, hsize, h⟩ := bind_eq_ok_iff.mp h
  rw [ite_error_eq_ok_iff, not_not] at h
  obtain ⟨hmod, h⟩ := h
  obtain ⟨out, -, h⟩ := bind_eq_ok_iff.mp h
  exact ⟨size, out, sizeAt_eq_ok hsize, hmod, (Except.ok.inj h).symm⟩

theorem isTile_plainTile {out : String} {width : ℕ} (t : ℕ) :
    IsTile op axis n width t (plainTile key axis op out n width t) := ⟨rfl, rfl, rfl⟩

theorem splitFusedConvS8_eq_ok (h : splitFusedConvS8 op n = .ok pieces) : ∃ conv fullOc out,
    op.subOps.find? (fun sub => sub.isConv2d ∧ sub.shape.items ≠ []) = some conv ∧
      conv.shape.get? "OC" = some fullOc ∧ fullOc % n = 0 ∧
        pieces = (List.range n).map (fusedTile op out fullOc n) := by
  unfold splitFusedConvS8 at h
  split at h
  next => cases h
  next conv hconv =>
    obtain ⟨fullOc, hsize, h⟩ := bind_eq_ok_iff.mp h
    rw [ite_error_eq_ok_iff, not_not] at h
    obtain ⟨hmod, h⟩ := h
    obtain ⟨out, -, h⟩ := bind_eq_ok_iff.mp h
    rw [ite_error_eq_ok_iff] at h
    exact ⟨conv, fullOc, out, hconv, sizeAt_eq_ok hsize, hmod, (Except.ok.inj h.2).symm⟩

/-- What a splitter returns are tiles. -/
theorem tiled_of_splitter {splitter : GraphOp → ℕ → Except SplitError (List GraphOp)}
    (hsplitter : splitterOf op.op = some splitter) (h : splitter op n = .ok pieces) :
    Tiled op n pieces := by
  unfold splitterOf at hsplitter
  unfold Tiled splitSize
  by_cases hlinear : op.op = "linear_s8"
  · rw [if_pos hlinear] at hsplitter
    cases hsplitter
    obtain ⟨size, out, hsize, hmod, hpieces⟩ := splitPlain_eq_ok h
    exact ⟨.N, size, _, by rw [if_pos hlinear, hsize]; rfl, hmod, hpieces, isTile_plainTile⟩
  rw [if_neg hlinear] at hsplitter ⊢
  by_cases hconv : op.op = "conv2d_s8"
  · rw [if_pos hconv] at hsplitter ⊢
    cases hsplitter
    obtain ⟨size, out, hsize, hmod, hpieces⟩ := splitPlain_eq_ok h
    exact ⟨.OC, size, _, by rw [hsize]; rfl, hmod, hpieces, isTile_plainTile⟩
  rw [if_neg hconv] at hsplitter ⊢
  split_ifs at hsplitter with hfused
  cases hsplitter
  obtain ⟨conv, fullOc, out, hfind, hsize, hmod, hpieces⟩ := splitFusedConvS8_eq_ok h
  exact ⟨.OC, fullOc, _, by rw [hfind, Option.bind_some, hsize]; rfl, hmod, hpieces,
    fun t => ⟨rfl, rfl, rfl⟩⟩

/-- The parts of the outputs, one behind the other. -/
theorem flatMap_range'_mul (width n : ℕ) :
    (List.range n).flatMap (fun t => List.range' (t * width) width) = List.range (n * width) := by
  induction n with
  | zero => simp
  | succ n ih =>
    have happend : List.range' 0 (n * width) ++ List.range' (0 + n * width) width =
        List.range' 0 (n * width + width) := range'_append_1
    rw [range_succ, flatMap_append, ih, flatMap_singleton, Nat.succ_mul,
      range_eq_range', range_eq_range', ← happend, Nat.zero_add]

end

/-! ### Numbering -/

theorem map_splitFrom_numberFrom (n : ℕ) (l : List GraphOp) :
    (numberFrom n l).map GraphOp.splitFrom = l.map GraphOp.splitFrom := by
  induction l generalizing n with
  | nil => rfl
  | cons op rest ih =>
    unfold numberFrom
    split
    · rw [map_cons, map_cons, ih]
    · rw [map_cons, map_cons, ih]

variable {n : ℕ} {l : List GraphOp}

/-- Numbering changes no dependencies, and numbers dispatches only. -/
theorem exists_of_mem_numberFrom {op : GraphOp} (h : op ∈ numberFrom n l) :
    ∃ old ∈ l, op.dependsOn = old.dependsOn ∧
      op.dispatchId.isSome = old.dispatchId.isSome := by
  induction l generalizing n with
  | nil => cases h
  | cons old rest ih =>
    have hrest : ∀ {k}, op ∈ numberFrom k rest → ∃ old' ∈ old :: rest,
        op.dependsOn = old'.dependsOn ∧ op.dispatchId.isSome = old'.dispatchId.isSome := by
      intro k hmem
      obtain ⟨old', hold', hsame⟩ := ih hmem
      exact ⟨old', mem_cons_of_mem old hold', hsame⟩
    unfold numberFrom at h
    split at h
    next =>
      rcases mem_cons.mp h with rfl | hmem
      · exact ⟨_, mem_cons_self, rfl, rfl⟩
      · exact hrest hmem
    next did hdid =>
      rcases mem_cons.mp h with rfl | hmem
      · exact ⟨_, mem_cons_self, rfl, by rw [hdid]; rfl⟩
      · exact hrest hmem

/-- The numbers are in a range. -/
theorem mem_dispatchIds_numberFrom {did : ℤ} :
    did ∈ dispatchIds (numberFrom n l) ↔ ∃ i : ℕ, did = i ∧ n ≤ i ∧
      i < n + (dispatchIds l).length := by
  rw [dispatchIds_numberFrom, mem_map]
  constructor
  · rintro ⟨i, hi, rfl⟩
    rw [mem_range'_1] at hi
    exact ⟨i, rfl, hi⟩
  · rintro ⟨i, rfl, hi⟩
    exact ⟨i, mem_range'_1.mpr hi, rfl⟩

/-- A list is in order if its numbers count up and dependencies have smaller ones. -/
theorem dependenciesEarlier_of_smaller {ops : List GraphOp}
    (hids : dispatchIds ops = (List.range (dispatchIds ops).length).map fun i : ℕ => (i : ℤ))
    (h : ∀ op ∈ ops, ∀ did, op.dispatchId = some did → ∀ dep ∈ op.dependsOn, 0 ≤ dep ∧ dep < did) :
    DependenciesEarlier ops := by
  intro i hi hne dep hdep
  obtain ⟨did, hdid⟩ := Option.ne_none_iff_exists'.mp hne
  obtain ⟨hpos, hlt⟩ := h _ (getElem_mem hi) did hdid dep hdep
  -- the numbers in front of the op are those below its own
  have hsplit : dispatchIds ops =
      dispatchIds (ops.take i) ++ did :: dispatchIds (ops.drop (i + 1)) := by
    conv_lhs => rw [← take_append_drop i ops, drop_eq_getElem_cons hi]
    rw [dispatchIds_append]
    congr 1
    exact filterMap_cons_some hdid
  have hget : ∀ (k : ℕ) (x : ℤ), (dispatchIds ops)[k]? = some x → x = k := by
    intro k x hx
    rw [hids, getElem?_map, Option.map_eq_some_iff] at hx
    obtain ⟨j, hj, rfl⟩ := hx
    obtain ⟨hlt', rfl⟩ := List.getElem?_eq_some_iff.mp hj
    rw [getElem_range]
  have hnumber : did = (dispatchIds (ops.take i)).length := by
    apply hget
    rw [hsplit, getElem?_append_right (le_refl _), Nat.sub_self]
    rfl
  obtain ⟨k, rfl⟩ := Int.eq_ofNat_of_zero_le hpos
  have hk : k < (dispatchIds (ops.take i)).length := by omega
  have hx := getElem?_eq_getElem hk
  have hx' : (dispatchIds ops)[k]? = some (dispatchIds (ops.take i))[k] := by
    rw [hsplit, getElem?_append_left hk, hx]
  rw [← hget k _ hx']
  exact getElem_mem hk

/-! ### The pass -/

section
variable {g : Graph} {hint : List SplitSpec} {targets : PyDict ℤ ℕ}

/-- What an op becomes, before the dispatches are numbered. -/
def splitPieces (targets : PyDict ℤ ℕ) (op : GraphOp) : List GraphOp :=
  ((splitInto targets op).toOption).getD [op]

variable {op : GraphOp} {st : Splitting} {byId : PyDict ℤ GraphOp} {spec : SplitSpec} {did : ℤ}

theorem splitPieces_eq {pieces : List GraphOp} (h : splitInto targets op = .ok pieces) :
    splitPieces targets op = pieces := by
  unfold splitPieces
  rw [h]
  rfl

theorem splitPieces_view (hop : op.dispatchId = none) :
    splitPieces targets op = [op] := by
  apply splitPieces_eq
  unfold splitInto
  rw [hop]
  cases splitterOf op.op <;> rfl

/-- What one op of the pass does. -/
theorem expanded_of_splitOp {done : List GraphOp} {st' : Splitting}
    (h : Expanded (splitPieces targets) done st.newOps st.idRemap st.nextId)
    (hstep : splitOp targets st op = .ok st') :
    Expanded (splitPieces targets) (done ++ [op]) st'.newOps st'.idRemap st'.nextId ∧
      ∃ pieces, splitInto targets op = .ok pieces := by
  unfold splitOp at hstep
  cases hop : op.dispatchId with
  | none =>
    simp only [hop] at hstep
    obtain rfl := Except.ok.inj hstep
    refine ⟨h.view hop (splitPieces_view hop), [op], ?_⟩
    unfold splitInto
    rw [hop]
    cases splitterOf op.op <;> rfl
  | some did =>
    simp only [hop] at hstep
    obtain ⟨pieces, hpieces, hstep⟩ := bind_eq_ok_iff.mp hstep
    obtain rfl := Except.ok.inj hstep
    have hlen : (dispatchIds (numberFrom st.nextId pieces)).length =
        (dispatchIds pieces).length := by
      rw [dispatchIds_numberFrom, length_map, length_range']
    refine ⟨?_, pieces, hpieces⟩
    have hnext := h.dispatch hop
    rw [splitPieces_eq hpieces, ← hlen] at hnext
    exact hnext

/-- The tables after the pass. -/
theorem expanded_of_splitPass {tensors : PyDict String TensorInfo} {ops : List GraphOp}
    (h : ops.foldlM (splitOp targets) { tensors := tensors } = .ok st) :
    Expanded (splitPieces targets) ops st.newOps st.idRemap st.nextId ∧
      ∀ op ∈ ops, ∃ pieces, splitInto targets op = .ok pieces := by
  refine foldlM_induction (P := fun done st =>
    Expanded (splitPieces targets) done st.newOps st.idRemap st.nextId ∧
      ∀ op ∈ done, ∃ pieces, splitInto targets op = .ok pieces) ?_ ?_ h
  · rintro done op st st' ⟨hst, hdone⟩ hstep
    obtain ⟨hst', hpieces⟩ := expanded_of_splitOp hst hstep
    refine ⟨hst', fun op' hop' => ?_⟩
    rcases mem_append.mp hop' with hmem | hlast
    · exact hdone op' hmem
    · exact mem_singleton.mp hlast ▸ hpieces
  · exact ⟨expanded_nil, fun op hop => absurd hop not_mem_nil⟩

/-- Every entry of a hint that is applied has passed its check. -/
theorem checkSplit_of_forM (h : hint.forM (checkSplit byId) = .ok ()) (hspec : spec ∈ hint) :
    checkSplit byId spec = .ok () := by
  induction hint with
  | nil => cases hspec
  | cons spec' rest ih =>
    change (checkSplit byId spec' >>= fun _ => rest.forM (checkSplit byId)) = .ok () at h
    obtain ⟨_, hhead, hrest⟩ := bind_eq_ok_iff.mp h
    rcases mem_cons.mp hspec with rfl | hmem
    · exact hhead
    · exact ih hrest hmem

theorem two_le_of_checkSplit (h : checkSplit byId spec = .ok ()) : 2 ≤ spec.nSplits := by
  unfold checkSplit at h
  split at h
  next => cases h
  next =>
    rw [ite_error_eq_ok_iff, ite_error_eq_ok_iff, not_lt] at h
    exact h.2.1

/-- What is known of a hint that is applied. -/
theorem applySplitHint_eq_ok {out : Graph} (hne : hint ≠ []) (h : applySplitHint g hint = .ok out) :
    (∀ spec ∈ hint, 2 ≤ spec.nSplits) ∧ ∃ st : Splitting,
      Expanded (splitPieces (splitTargets hint)) g.ops st.newOps st.idRemap st.nextId ∧
        (∀ op ∈ g.ops, ∃ pieces, splitInto (splitTargets hint) op = .ok pieces) ∧
          out.ops = st.newOps.map (rewireDependsOn st.idRemap) ∧
            out.dispatches = g.dispatches.map (fun _ => dispatchIds out.ops) ∧
              out.idRemap = some (.lists (st.idRemap.items.mergeSort fun a b => a.1 ≤ b.1)) := by
  unfold applySplitHint at h
  rw [if_neg hne] at h
  obtain ⟨_, hcheck, h⟩ := bind_eq_ok_iff.mp h
  obtain ⟨st, hst, h⟩ := bind_eq_ok_iff.mp h
  obtain rfl := Except.ok.inj h
  obtain ⟨hexpanded, hpieces⟩ := expanded_of_splitPass hst
  refine ⟨fun spec hspec => ?_, st, hexpanded, hpieces, rfl, rfl, rfl⟩
  exact two_le_of_checkSplit (checkSplit_of_forM hcheck hspec)

/-! ### Blocks -/

/-- Sorting the items of a dictionary changes no entry. -/
theorem lookup_mergeSort (d : PyDict ℤ (List ℤ)) (did : ℤ) :
    (d.items.mergeSort fun a b => a.1 ≤ b.1).lookup did = d.get? did := by
  have hperm := mergeSort_perm d.items fun a b => a.1 ≤ b.1
  have hnodup : ((d.items.mergeSort fun a b => a.1 ≤ b.1).map Prod.fst).Nodup :=
    (hperm.map Prod.fst).nodup_iff.mpr d.nodup
  show (PyDict.mk _ hnodup).get? did = d.get? did
  ext ids
  rw [← PyDict.mem_items_iff, ← PyDict.mem_items_iff]
  exact hperm.mem_iff

theorem pieceCount_eq (hint : List SplitSpec) (did : ℤ) :
    pieceCount hint did = ((splitTargets hint).get? did).getD 1 := by
  unfold pieceCount splitTargets
  rw [PyDict.get?_ofList, filter_map, getLast?_map, Option.map_map]
  rfl

section
variable (hdid : op.dispatchId = some did) (hpieces : ∃ pieces, splitInto targets op = .ok pieces)
include hdid hpieces

/-- A dispatch becomes its tiles, or stays as it is. -/
theorem splitPieces_cases :
    (targets.get? did = none ∧ splitPieces targets op = [op]) ∨
      ∃ n, targets.get? did = some n ∧ Tiled op n (splitPieces targets op) := by
  obtain ⟨pieces, hpieces⟩ := hpieces
  rw [splitPieces_eq hpieces]
  unfold splitInto at hpieces
  rw [hdid, Option.bind_some] at hpieces
  split at hpieces
  next n splitter htarget hsplitter =>
    exact .inr ⟨n, htarget, tiled_of_splitter hsplitter hpieces⟩
  next => cases hpieces
  next hnone => exact .inl ⟨hnone, (Except.ok.inj hpieces).symm⟩

/-- The pieces of a dispatch are dispatches with its dependencies. -/
theorem of_mem_splitPieces {piece : GraphOp} (h : piece ∈ splitPieces targets op) :
    piece.dispatchId = some did ∧ piece.dependsOn = op.dependsOn := by
  rcases splitPieces_cases hdid hpieces with ⟨-, hsingle⟩ | ⟨n, -, hn⟩
  · rw [hsingle, mem_singleton] at h
    rw [h]
    exact ⟨hdid, rfl⟩
  · obtain ⟨axis, size, tile, -, -, heq, htile⟩ := hn
    rw [heq, mem_map] at h
    obtain ⟨t, -, rfl⟩ := h
    exact ⟨(htile t).dispatchId.trans hdid, (htile t).dependsOn⟩

end

/-- The number of the pieces of a dispatch. -/
theorem length_splitPieces (hdid : op.dispatchId = some did)
    (hpieces : ∃ pieces, splitInto (splitTargets hint) op = .ok pieces) :
    (dispatchIds (splitPieces (splitTargets hint) op)).length = pieceCount hint did := by
  have hlen : (dispatchIds (splitPieces (splitTargets hint) op)).length =
      (splitPieces (splitTargets hint) op).length := by
    unfold dispatchIds
    rw [filterMap_length_eq_length]
    intro piece hpiece
    rw [(of_mem_splitPieces hdid hpieces hpiece).1]
    rfl
  rw [hlen, pieceCount_eq]
  rcases splitPieces_cases hdid hpieces with ⟨hnone, hsingle⟩ | ⟨n, hn, -, -, tile, -, -, heq, -⟩
  · rw [hnone, hsingle]
    rfl
  · rw [hn, heq, length_map, length_range]
    rfl

end

section
variable {g out : Graph} {pieces : GraphOp → List GraphOp} {remap : PyDict ℤ (List ℤ)}

/-- A pass whose tables are returned. -/
structure Returned (pieces : GraphOp → List GraphOp) (g out : Graph)
    (remap : PyDict ℤ (List ℤ)) : Prop where
  nodup : (dispatchIds g.ops).Nodup
  expanded : ∃ n, Expanded pieces g.ops (numberFrom 0 (g.ops.flatMap pieces)) remap n
  /-- The pieces of a dispatch are dispatches with its dependencies. -/
  dispatches : ∀ op ∈ g.ops, ∀ did, op.dispatchId = some did → ∀ piece ∈ pieces op,
    piece.dispatchId = some did ∧ piece.dependsOn = op.dependsOn
  views : ∀ op ∈ g.ops, op.dispatchId = none → pieces op = [op]
  ops : out.ops = (numberFrom 0 (g.ops.flatMap pieces)).map (rewireDependsOn remap)
  remapped : ∀ did, out.remapped did = remap.get? did

/-- The number of dispatches that some ops become. -/
def countPieces (pieces : GraphOp → List GraphOp) (ops : List GraphOp) : ℕ :=
  (dispatchIds (ops.flatMap pieces)).length

variable (h : Returned pieces g out remap)
include h

variable {post pre : List GraphOp} {op new : GraphOp} {did : ℤ}

section
variable (hops : g.ops = pre ++ op :: post) (hdid : op.dispatchId = some did)
include hops hdid

/-- The block of a dispatch is behind the blocks in front of it. -/
theorem Returned.remapped_eq :
    out.remapped did =
      some (dispatchIds (numberFrom (countPieces pieces pre) (pieces op))) := by
  obtain ⟨n, hexpanded⟩ := h.expanded
  rw [h.remapped]
  exact hexpanded.get?_idRemap h.nodup hops hdid

theorem Returned.block_eq :
    out.block did =
      dispatchIds (numberFrom (countPieces pieces pre) (pieces op)) := by
  unfold Graph.block
  rw [h.remapped_eq hops hdid]
  rfl

end

theorem Returned.isSome_remapped_iff :
    (out.remapped did).isSome ↔ did ∈ dispatchIds g.ops := by
  constructor
  · intro hsome
    obtain ⟨ids, hids⟩ := Option.isSome_iff_exists.mp hsome
    rw [h.remapped] at hids
    obtain ⟨n, hexpanded⟩ := h.expanded
    obtain ⟨pre, op, post, hops, hdid, -⟩ := hexpanded.idRemap did ids hids
    exact mem_filterMap.mpr ⟨op, by rw [hops]; simp, hdid⟩
  · intro hmem
    obtain ⟨op, hop, hdid⟩ := mem_filterMap.mp hmem
    obtain ⟨pre, post, hops⟩ := append_of_mem hop
    rw [h.remapped_eq hops hdid]
    rfl

/-- The blocks of the first dispatches are the first numbers. -/
theorem Returned.flatMap_block (hops : g.ops = pre ++ post) :
    (dispatchIds pre).flatMap out.block =
      (List.range (countPieces pieces pre)).map fun i : ℕ => (i : ℤ) := by
  induction pre using reverseRecOn generalizing post with
  | nil => rfl
  | append_singleton pre op ih =>
    have hops' : g.ops = pre ++ op :: post := by simp [hops]
    have hcount : countPieces pieces (pre ++ [op]) =
        countPieces pieces pre + (dispatchIds (pieces op)).length := by
      unfold countPieces
      rw [flatMap_append, flatMap_singleton, dispatchIds_append, length_append]
    rw [dispatchIds_append, flatMap_append, ih hops', hcount]
    cases hdid : op.dispatchId with
    | none =>
      have hview := h.views op (by simp [hops']) hdid
      have hnone : dispatchIds [op] = [] := filterMap_cons_none hdid
      rw [hview, hnone]
      simp
    | some did =>
      have hsome : dispatchIds [op] = [did] := filterMap_cons_some hdid
      have happend : List.range' 0 (countPieces pieces pre) ++
          List.range' (0 + countPieces pieces pre) (dispatchIds (pieces op)).length = _ :=
        range'_append_1
      rw [hsome, flatMap_singleton, h.block_eq hops' hdid, dispatchIds_numberFrom,
        ← map_append, range_eq_range', range_eq_range', ← happend, Nat.zero_add]

omit h in
theorem dispatchId_rewire (remap : PyDict ℤ (List ℤ)) (op : GraphOp) :
    (rewireDependsOn remap op).dispatchId = op.dispatchId := by
  unfold rewireDependsOn
  split <;> rfl

omit h in
theorem dispatchIds_rewire (remap : PyDict ℤ (List ℤ)) (ops : List GraphOp) :
    dispatchIds (ops.map (rewireDependsOn remap)) = dispatchIds ops := by
  unfold dispatchIds
  rw [filterMap_map]
  apply filterMap_congr
  intro op _
  exact dispatchId_rewire remap op

theorem Returned.dispatchIds_ops : dispatchIds out.ops =
    (List.range (countPieces pieces g.ops)).map fun i : ℕ => (i : ℤ) := by
  rw [h.ops, dispatchIds_rewire, dispatchIds_numberFrom, range_eq_range']
  rfl

/-- The ops that a dispatch has become are its pieces, numbered. -/
theorem Returned.blockOps_eq (hops : g.ops = pre ++ op :: post) (hdid : op.dispatchId = some did) :
    out.blockOps did =
      (numberFrom (countPieces pieces pre) (pieces op)).map (rewireDependsOn remap) := by
  have hblock : ∀ i : ℕ, (i : ℤ) ∈ out.block did ↔ countPieces pieces pre ≤ i ∧
      i < countPieces pieces pre + (dispatchIds (pieces op)).length := by
    intro i
    rw [h.block_eq hops hdid, mem_dispatchIds_numberFrom]
    simp
  have hnone : ∀ {k : ℕ} {l : List GraphOp}, (∀ i : ℕ, k ≤ i → i < k + (dispatchIds l).length →
      (i : ℤ) ∉ out.block did) →
        ((numberFrom k l).filter fun op => op.dispatchId.any fun n => n ∈ out.block did) = [] := by
    intro k l hnot
    rw [filter_eq_nil_iff]
    intro new hnew hany
    obtain ⟨did', hdid', hmem⟩ := (Option.any_eq_true _ _).mp hany
    have hnumber : did' ∈ dispatchIds (numberFrom k l) := mem_filterMap.mpr ⟨new, hnew, hdid'⟩
    obtain ⟨i, rfl, hle, hlt⟩ := mem_dispatchIds_numberFrom.mp hnumber
    exact hnot i hle hlt (of_decide_eq_true hmem)
  have hall : ((numberFrom (countPieces pieces pre) (pieces op)).filter
      fun op => op.dispatchId.any fun n => n ∈ out.block did) =
        numberFrom (countPieces pieces pre) (pieces op) := by
    rw [filter_eq_self]
    intro new hnew
    obtain ⟨piece, hpiece, -, hsome⟩ := exists_of_mem_numberFrom hnew
    rw [(h.dispatches op (by simp [hops]) did hdid piece hpiece).1] at hsome
    obtain ⟨did', hdid'⟩ := Option.isSome_iff_exists.mp hsome
    rw [hdid', Option.any_some, decide_eq_true_eq, h.block_eq hops hdid]
    exact mem_filterMap.mpr ⟨new, hnew, hdid'⟩
  have hpred : (fun op : GraphOp => op.dispatchId.any fun n => decide (n ∈ out.block did)) ∘
      rewireDependsOn remap = fun op => op.dispatchId.any fun n => decide (n ∈ out.block did) := by
    funext op
    show (rewireDependsOn remap op).dispatchId.any _ = _
    rw [dispatchId_rewire]
  have hfront : ((numberFrom 0 (pre.flatMap pieces)).filter
      fun op => op.dispatchId.any fun n => n ∈ out.block did) = [] := by
    refine hnone fun i _ hlt hmem => ?_
    obtain ⟨hle, -⟩ := (hblock i).mp hmem
    unfold countPieces at hle
    omega
  have hback : ((numberFrom (countPieces pieces pre + (dispatchIds (pieces op)).length)
      (post.flatMap pieces)).filter fun op => op.dispatchId.any fun n => n ∈ out.block did) =
        [] := by
    refine hnone fun i hle _ hmem => ?_
    obtain ⟨-, hlt⟩ := (hblock i).mp hmem
    omega
  have hnumbers : numberFrom 0 (g.ops.flatMap pieces) = numberFrom 0 (pre.flatMap pieces) ++
      (numberFrom (countPieces pieces pre) (pieces op) ++
        numberFrom (countPieces pieces pre + (dispatchIds (pieces op)).length)
          (post.flatMap pieces)) := by
    rw [hops, flatMap_append, flatMap_cons, numberFrom_append, numberFrom_append, Nat.zero_add]
    rfl
  unfold Graph.blockOps
  rw [h.ops, filter_map, hpred, hnumbers, filter_append, filter_append, hfront,
    hback, hall, nil_append, append_nil]

/-- The ops that a dispatch has become wait for all that its dependencies have become. -/
theorem Returned.dependsOn_eq (hop : op ∈ g.ops) (hdid : op.dispatchId = some did)
    (hnew : new ∈ out.blockOps did) :
    new.dependsOn = PyList.orderedUnique (op.dependsOn.flatMap out.block) := by
  obtain ⟨pre, post, hops⟩ := append_of_mem hop
  rw [h.blockOps_eq hops hdid] at hnew
  obtain ⟨numbered, hnumbered, rfl⟩ := mem_map.mp hnew
  obtain ⟨piece, hpiece, hdeps, hsome⟩ := exists_of_mem_numberFrom hnumbered
  obtain ⟨hid, hsame⟩ := h.dispatches op hop did hdid piece hpiece
  rw [hid] at hsome
  obtain ⟨n, hn⟩ := Option.isSome_iff_exists.mp hsome
  have hblock : out.block = fun d => (remap.get? d).getD [] := by
    funext d
    unfold Graph.block
    rw [h.remapped]
  unfold rewireDependsOn
  rw [hn, hblock, ← hsame, ← hdeps]

/-- An op with a number is one that a dispatch has become. -/
theorem Returned.exists_of_mem_ops {n : ℤ} (hnew : new ∈ out.ops) (hn : new.dispatchId = some n) :
    ∃ pre op post did, g.ops = pre ++ op :: post ∧
      op.dispatchId = some did ∧ new ∈ out.blockOps did ∧ n ∈ out.block did := by
  have hmem : n ∈ (dispatchIds g.ops).flatMap out.block := by
    rw [h.flatMap_block (append_nil g.ops).symm, ← h.dispatchIds_ops]
    exact mem_filterMap.mpr ⟨new, hnew, hn⟩
  obtain ⟨did, hdid, hblock⟩ := mem_flatMap.mp hmem
  obtain ⟨op, hop, hid⟩ := mem_filterMap.mp hdid
  obtain ⟨pre, post, hops⟩ := append_of_mem hop
  refine ⟨pre, op, post, did, hops, hid, mem_filter.mpr ⟨hnew, ?_⟩, hblock⟩
  rw [hn]
  simpa using hblock

/-- If the dependencies are in front of their dependents, they are after the pass. -/
theorem Returned.dependenciesEarlier (hordered : TopologicallyOrdered g.ops) :
    DependenciesEarlier out.ops := by
  apply dependenciesEarlier_of_smaller
  · rw [h.dispatchIds_ops, length_map, length_range]
  intro new hnew n hn dep hdep
  obtain ⟨pre, op, post, did, hops, hdid, hblockOps, hblock⟩ := h.exists_of_mem_ops hnew hn
  have hop : op ∈ g.ops := by simp [hops]
  rw [h.dependsOn_eq hop hdid hblockOps, PyList.mem_orderedUnique, mem_flatMap] at hdep
  obtain ⟨old, hold, hdep⟩ := hdep
  -- the dependency is a dispatch in front of the op
  have hknown : old ∈ dispatchIds g.ops := by
    rw [← h.isSome_remapped_iff]
    unfold Graph.block at hdep
    cases hget : out.remapped old with
    | none =>
      rw [hget] at hdep
      cases hdep
    | some ids => rfl
  have hpre : old ∈ dispatchIds pre :=
    hordered pre op post hops (by rw [hdid]; exact Option.some_ne_none did) old hold hknown
  have hfirst : dep ∈ (dispatchIds pre).flatMap out.block := mem_flatMap.mpr ⟨old, hpre, hdep⟩
  rw [h.flatMap_block hops, mem_map] at hfirst
  obtain ⟨i, hi, rfl⟩ := hfirst
  rw [mem_range] at hi
  rw [h.block_eq hops hdid, mem_dispatchIds_numberFrom] at hblock
  omega

end

/-! ### Splitting -/

section
variable {g out : Graph} {hint : List SplitSpec}

/-- The pass of splitting, with the tables that it returns. -/
theorem returned_of_applySplitHint (hnd : (dispatchIds g.ops).Nodup) (hne : hint ≠ [])
    (h : applySplitHint g hint = .ok out) :
    (∃ remap, Returned (splitPieces (splitTargets hint)) g out remap) ∧
      (∀ op ∈ g.ops, ∃ pieces, splitInto (splitTargets hint) op = .ok pieces) ∧
        (∀ spec ∈ hint, 2 ≤ spec.nSplits) ∧
          out.dispatches = g.dispatches.map fun _ => dispatchIds out.ops := by
  obtain ⟨htwo, st, hexpanded, hpieces, hops, hdispatches, hremap⟩ := applySplitHint_eq_ok hne h
  refine ⟨⟨st.idRemap, hnd, ⟨st.nextId, ?_⟩, ?_, ?_, ?_, ?_⟩, hpieces, htwo, hdispatches⟩
  · exact hexpanded.newOps ▸ hexpanded
  · intro op hop did hdid piece hpiece
    exact of_mem_splitPieces hdid (hpieces op hop) hpiece
  · exact fun op _ hview => splitPieces_view hview
  · rw [hops, hexpanded.newOps]
  · intro did
    unfold Graph.remapped
    rw [hremap]
    exact lookup_mergeSort st.idRemap did

/-- A split op has a target. -/
theorem exists_target {spec : SplitSpec} (hspec : spec ∈ hint) :
    ∃ n, (splitTargets hint).get? spec.op = some n := by
  rw [← PyDict.mem_keys_iff]
  unfold splitTargets
  rw [PyDict.mem_keys_ofList, map_map]
  exact mem_map_of_mem hspec

/-- A dispatch becomes one op at least. -/
theorem pieceCount_pos (htwo : ∀ spec ∈ hint, 2 ≤ spec.nSplits) (did : ℤ) :
    0 < pieceCount hint did := by
  unfold pieceCount
  cases hlast : (hint.filter fun spec => spec.op = did).getLast? with
  | none => exact Nat.one_pos
  | some spec =>
    have hspec := htwo spec (mem_filter.mp (mem_of_getLast? hlast)).1
    show 0 < spec.nSplits.toNat
    omega

/-- The tiles of an op have its outputs between them. -/
theorem tilesOf_of_tiled {op : GraphOp} {did : ℤ} (hdid : op.dispatchId = some did) {n k : ℕ}
    {pieces : List GraphOp} (h : Tiled op n pieces) (remap : PyDict ℤ (List ℤ)) :
    TilesOf op did n ((numberFrom k pieces).map (rewireDependsOn remap)) := by
  obtain ⟨axis, size, tile, hsize, hmod, rfl, htile⟩ := h
  refine ⟨axis, size, hsize, (List.range n).map fun t =>
    ⟨did, t, n, axis, size / n, t * (size / n)⟩, ?_, ?_, ?_, ?_⟩
  · have hrewire : GraphOp.splitFrom ∘ rewireDependsOn remap = GraphOp.splitFrom := by
      funext new
      show (rewireDependsOn remap new).splitFrom = _
      unfold rewireDependsOn
      split <;> rfl
    rw [map_map, hrewire, map_splitFrom_numberFrom, map_map, map_map]
    apply map_congr_left
    intro t _
    show (tile t).splitFrom = _
    rw [(htile t).splitFrom, hdid]
    rfl
  · intro t origin horigin
    rw [getElem?_map, Option.map_eq_some_iff] at horigin
    obtain ⟨t', ht', rfl⟩ := horigin
    obtain ⟨hlt, rfl⟩ := List.getElem?_eq_some_iff.mp ht'
    rw [getElem_range]
    exact ⟨rfl, rfl, rfl, rfl⟩
  · rw [length_map, length_range]
  · have hmul : n * (size / n) = size := Nat.mul_div_cancel' (Nat.dvd_of_mod_eq_zero hmod)
    have hranges := flatMap_range'_mul (size / n) n
    rw [hmul] at hranges
    rw [flatMap_map]
    exact hranges

/-- Splitting renumbers the dispatches, if there is something to split. -/
theorem renumbered_of_applySplitHint (hnd : (dispatchIds g.ops).Nodup) (hne : hint ≠ [])
    (h : applySplitHint g hint = .ok out) : Renumbered g hint out := by
  obtain ⟨⟨remap, hreturned⟩, hpieces, htwo, hdispatches⟩ := returned_of_applySplitHint hnd hne h
  constructor
  case domain => exact fun did => hreturned.isSome_remapped_iff
  case blocks =>
    rw [hreturned.flatMap_block (append_nil g.ops).symm, hreturned.dispatchIds_ops,
      length_map, length_range]
  case lengths =>
    intro did hdid
    obtain ⟨op, hop, hid⟩ := mem_filterMap.mp hdid
    obtain ⟨pre, post, hops⟩ := append_of_mem hop
    have hlen : (out.block did).length = pieceCount hint did := by
      rw [hreturned.block_eq hops hid, dispatchIds_numberFrom, length_map, length_range',
        length_splitPieces hid (hpieces op hop)]
    refine ⟨hlen, fun hnil => ?_⟩
    have hpos := pieceCount_pos htwo did
    rw [← hlen, hnil] at hpos
    exact absurd hpos (lt_irrefl 0)
  case ids => rw [hreturned.dispatchIds_ops, length_map, length_range]
  case tiles =>
    intro op hop spec hspec hdid
    obtain ⟨pre, post, hops⟩ := append_of_mem hop
    obtain ⟨n, hn⟩ := exists_target hspec
    rw [hreturned.blockOps_eq hops hdid]
    rcases splitPieces_cases hdid (hpieces op hop) with ⟨hnone, -⟩ | ⟨n', hn', htiled⟩
    · rw [hnone] at hn
      cases hn
    · have hcount : pieceCount hint spec.op = n' := by
        rw [pieceCount_eq, hn']
        rfl
      rw [hcount]
      exact tilesOf_of_tiled hdid htiled remap
  case dependsOn => exact fun op hop did hdid new hnew => hreturned.dependsOn_eq hop hdid hnew
  case dispatches => exact hdispatches
  case ordered => exact hreturned.dependenciesEarlier

end

/-- A linear op and its activation. -/
def linearElu : Graph :=
  { ops := [
      { op := "linear_s8", name := "fc", dispatchId := some 0, inputs := ["x"], outputs := ["a"],
        shape := ⟨[("N", 8), ("K", 4)], by decide⟩ },
      { op := "elu_s8", name := "act", dispatchId := some 1, dependsOn := [0], inputs := ["a"],
        outputs := ["y"] }]
    dispatches := some [0, 1] }

/-- The activation waits for both tiles. -/
theorem renumbered_linearElu : ∃ out, applySplitHint linearElu [⟨0, 2⟩] = .ok out ∧
    out.ops.map GraphOp.dependsOn = [[], [], [0, 1]] ∧ Renumbered linearElu [⟨0, 2⟩] out := by
  have hdeps : ((applySplitHint linearElu [⟨0, 2⟩]).toOption.map fun out =>
      out.ops.map GraphOp.dependsOn) = some [[], [], [0, 1]] := by decide
  cases h : applySplitHint linearElu [⟨0, 2⟩] with
  | error e =>
    rw [h] at hdeps
    cases hdeps
  | ok out =>
    rw [h] at hdeps
    exact ⟨out, rfl, Option.some.inj hdeps, renumbered_of_applySplitHint (by decide) (by decide) h⟩

/-- Where nothing is split, there are no new ids. -/
theorem not_renumbered_nil : ∃ out, applySplitHint linearElu [] = .ok out ∧
    ¬Renumbered linearElu [] out := by
  refine ⟨linearElu, rfl, fun h => ?_⟩
  have hsome : (linearElu.remapped 0).isSome := (h.domain 0).mpr (by decide)
  cases hsome

end ModelBlaster

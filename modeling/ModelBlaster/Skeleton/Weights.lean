import ModelBlaster.Graph
import ModelBlaster.Library.Fallible
import ModelBlaster.Library.Strided

/-!
# Emitted weights

The weight arrays that the generator writes, and the weights that its conv calls read. On a backend
that repacks conv weights, a tile and a shard have arrays of their own, which are sliced first and
repacked then. Their keys have the key of the weight and the number of the slice, and nothing else.
The array of the full weight is dropped when no call reads it.

Symbols are named by their keys here. The C identifier that a key is mangled to is left out.

## Main definitions

* `convShapeOf`, `convWeightOf`, `convBiasOf`: the conv of an op, plain or fused;
* `splitConvTileWeights`: the tiles with arrays of their own;
* `shardConvWeights`: the convs whose shards have arrays of their own;
* `backendPackWeight`: the array as a backend stores it;
* `emitWeights`: the arrays that are written;
* `convCalls`: the conv calls of an op, and the weights that they read;
* `PlanSound`: every call reads the weights of the channels that it computes;
* `StoredAs`: an array has certain channels of a weight, in the order of a layout;
* `SameOrder`: a layout orders the weights of some sizes as the checkpoint does.

## Main results

* `get?_shardConvWeights`: which ops are planned, and for how many shards;
* `storedAs_backendPackWeight`: what packing a slice makes of it;
* `StoredAs.reads`: a kernel finds its weights, if every place that it looks at is the right one;
* `rightPlaces_packed_iff`, `rightPlaces_unpacked_iff`, `rightPlaces_offset_iff`: when this is so.
-/

/-! ## Plans for re-packed weights -/

namespace ModelBlaster

/-- The layout that a backend's conv kernels want. -/
inductive WeightLayout where
  /-- The layout of the checkpoint. -/
  | oihw
  /-- The layout of gemmini. -/
  | hwio
  /-- The layout of the vector kernels. -/
  | ihwoc
deriving DecidableEq, Repr

/-- The backend stores conv weights in another order than the checkpoint. -/
def Repacks (layout : Option WeightLayout) : Prop := layout ≠ none ∧ layout ≠ some .oihw

instance (layout : Option WeightLayout) : Decidable (Repacks layout) :=
  inferInstanceAs (Decidable (_ ∧ _))

/-- `_OC_SLICEABLE_CONV_OPS`, and `_SHARDABLE_CONV_OPS` as well. -/
def ocSliceableConvOps : List String :=
  ["conv2d_s8", "conv2d_batchnorm2d_s8", "conv2d_batchnorm2d_silu_s8"]

/-- `op.startswith("conv2d")` -/
def GraphOp.isConv2d (op : GraphOp) : Bool := "conv2d".toList.isPrefixOf op.op.toList

/-- A key that is there and not empty. -/
def truthyKey (key : Option String) : Option String := key.filter (· ≠ "")

/-- `_conv_shape_of` -/
def convShapeOf (op : GraphOp) : PyDict String ℕ :=
  if op.shape.items ≠ [] then op.shape
  else
    match op.subOps.find? fun sub => sub.isConv2d ∧ sub.shape.items ≠ [] with
    | some sub => sub.shape
    | none => PyDict.empty

/-- `_conv_weight_of` -/
def convWeightOf (op : GraphOp) : Option String :=
  (truthyKey op.weight).or
    (op.subOps.findSome? fun sub => if sub.isConv2d then truthyKey sub.weight else none)

/-- `_conv_bias_of` -/
def convBiasOf (op : GraphOp) : Option String :=
  if truthyKey op.weight ≠ none ∧ truthyKey op.bias ≠ none then truthyKey op.bias
  else op.subOps.findSome? fun sub => if sub.isConv2d then truthyKey sub.bias else none

/-- `int(_conv_shape_of(op).get("OC", 0))` -/
def convOutputChannels (op : GraphOp) : ℕ := ((convShapeOf op).get? "OC").getD 0

/-! ### Tiles -/

/-- The plan for a tile. -/
structure TileSpec where
  /-- The key of the full weight. -/
  weight : String
  /-- The key of the full bias. -/
  bias : Option String
  /-- The number of the tile. -/
  tile : ℕ
  /-- The number of tiles. -/
  nSplits : ℕ
  /-- The output channels of the tile. -/
  tileOc : ℕ
deriving DecidableEq, Repr

/-- The tile is one over output channels. -/
def GraphOp.IsOcTile (op : GraphOp) : Prop := op.splitFrom.map SplitFrom.axis = some .OC

instance (op : GraphOp) : Decidable op.IsOcTile := inferInstanceAs (Decidable (_ = _))

/-- The entry of a tile in the plan. -/
def tileEntry (op : GraphOp) : Option (ℤ × TileSpec) :=
  match op.splitFrom, op.dispatchId, convWeightOf op with
  | some sf, some did, some weight =>
    some (did, ⟨weight, convBiasOf op, sf.tile, sf.nSplits, convOutputChannels op⟩)
  | _, _, _ => none

/-- `split_conv_tile_weights` -/
def splitConvTileWeights (ops : List GraphOp) (layout : Option WeightLayout) :
    PyDict ℤ TileSpec :=
  let tiles := ops.filter fun op => op.IsOcTile ∧ op.op ∈ ocSliceableConvOps
  if tiles = [] ∨ ¬Repacks layout then PyDict.empty
  else PyDict.ofList (tiles.filterMap tileEntry)

/-! ### Shards -/

/-- The plan for a sharded conv. -/
structure ShardSpec where
  /-- The key of the full weight. -/
  weight : String
  /-- The output channels of a shard. -/
  ocPer : ℕ
  /-- The number of shards. -/
  nShards : ℕ
deriving DecidableEq, Repr

/-- `_factor_for`: the width that the op asks for, else `factor`, which is `MB_SHARD_FACTOR`. -/
def factorFor (factor : ℕ) (op : GraphOp) : ℕ :=
  match op.shardFactor with
  | some n => if n = 0 then max 1 factor else max 1 n.toNat
  | none => max 1 factor

/-- The planner looks at the op. -/
def Shardable (op : GraphOp) : Prop :=
  op.op ∈ ocSliceableConvOps ∧ convWeightOf op ≠ none ∧ op.splitFrom = none

instance (op : GraphOp) : Decidable (Shardable op) :=
  inferInstanceAs (Decidable (_ ∧ _ ∧ _))

/-- The entry of a conv in the plan. -/
def shardEntry (factor : ℕ) (op : GraphOp) : Option (ℤ × ShardSpec) :=
  let f := factorFor factor op
  let oc := convOutputChannels op
  match op.dispatchId, convWeightOf op with
  | some did, some weight =>
    if f ≤ 1 ∨ oc = 0 ∨ oc % f ≠ 0 then none else some (did, ⟨weight, oc / f, f⟩)
  | _, _ => none

/-- `shard_conv_weights` -/
def shardConvWeights (ops : List GraphOp) (layout : Option WeightLayout) (factor : ℕ) :
    PyDict ℤ ShardSpec :=
  let convs := ops.filter fun op => Shardable op
  if (∀ op ∈ convs, factorFor factor op ≤ 1) ∨ ¬Repacks layout then PyDict.empty
  else PyDict.ofList (convs.filterMap (shardEntry factor))

variable {factor : ℕ} {spec : ShardSpec} {op : GraphOp} {did : ℤ} {ops : List GraphOp}

/-- When an op has an entry in the plan. -/
theorem shardEntry_eq_some_iff :
    shardEntry factor op = some (did, spec) ↔
      op.dispatchId = some did ∧ convWeightOf op = some spec.weight ∧ 1 < factorFor factor op ∧
        0 < convOutputChannels op ∧ factorFor factor op ∣ convOutputChannels op ∧
        spec.nShards = factorFor factor op ∧
        spec.ocPer = convOutputChannels op / factorFor factor op := by
  unfold shardEntry
  cases hdid : op.dispatchId with
  | none => simp
  | some d =>
    cases hweight : convWeightOf op with
    | none => simp
    | some weight =>
      simp only [Nat.dvd_iff_mod_eq_zero]
      split_ifs with hskip
      · constructor
        · exact fun h => by cases h
        · omega
      · rw [not_or, not_or, not_not, Nat.not_le] at hskip
        constructor
        · intro h
          cases h
          exact ⟨rfl, rfl, hskip.1, Nat.pos_of_ne_zero hskip.2.1, hskip.2.2, rfl, rfl⟩
        · rintro ⟨hd, hw, -, -, -, hn, hper⟩
          obtain ⟨w, per, n⟩ := spec
          simp_all

/-- The entry of a tile stands under its dispatch id. -/
theorem dispatchId_of_tileEntry {spec : TileSpec} (h : tileEntry op = some (did, spec)) :
    op.dispatchId = some did := by
  unfold tileEntry at h
  split at h
  · cases h
    assumption
  · cases h

/-- Entries of a plan, keyed by the dispatch ids of their ops, have distinct keys. -/
theorem nodup_entries {σ : Type} (hnd : (dispatchIds ops).Nodup) {entry : GraphOp → Option (ℤ × σ)}
    (hentry : ∀ op did spec, entry op = some (did, spec) → op.dispatchId = some did)
    (p : GraphOp → Prop) [DecidablePred p] :
    (((ops.filter fun op => p op).filterMap entry).map Prod.fst).Nodup := by
  rw [List.filterMap_filter, List.map_filterMap]
  refine hnd.sublist (PyList.filterMap_sublist (fun op did hdid => ?_) ops)
  obtain ⟨⟨did', spec⟩, hspec, rfl⟩ := Option.map_eq_some_iff.mp hdid
  split_ifs at hspec
  exact hentry op did' spec hspec

/-- What is planned for a dispatch: its op is shardable, and the width that it asks for is more
than one and divides its output channels. -/
theorem get?_shardConvWeights (hnd : (dispatchIds ops).Nodup) {layout : Option WeightLayout} :
    (shardConvWeights ops layout factor).get? did = some spec ↔
      Repacks layout ∧ ∃ op ∈ ops, Shardable op ∧ shardEntry factor op = some (did, spec) := by
  unfold shardConvWeights
  simp only
  have hread := PyDict.get?_ofList_iff (k := did) (v := spec)
    (nodup_entries hnd (fun op did spec (h : shardEntry factor op = some (did, spec)) =>
      (shardEntry_eq_some_iff.mp h).1) Shardable)
  split_ifs with hnone
  · refine iff_of_false (by simp) ?_
    rintro ⟨hrepacks, op, hop, hshardable, hentry⟩
    rcases hnone with hone | hlayout
    · have hle := hone op (List.mem_filter.mpr ⟨hop, decide_eq_true hshardable⟩)
      exact absurd (shardEntry_eq_some_iff.mp hentry).2.2.1 (Nat.not_lt.mpr hle)
    · exact hlayout hrepacks
  · rw [not_or, not_not] at hnone
    rw [hread, List.mem_filterMap]
    simp only [List.mem_filter, decide_eq_true_eq, and_assoc, hnone.2, true_and]

end ModelBlaster

namespace ModelBlaster

/-- `_LAYOUT_PERMUTATION` -/
def layoutPermutation : WeightLayout → Option (List ℕ)
  | .oihw => none
  | .hwio => some [2, 3, 1, 0]
  | .ihwoc => some [1, 2, 3, 0]

/-- `_backend_pack_weight` -/
def backendPackWeight (layout : Option WeightLayout) (a : NdArray ℤ) : NdArray ℤ :=
  if a.shape.length ≠ 4 then a
  else
    match layout.bind layoutPermutation with
    | none => a
    | some perm => a.transpose perm

/-! ### Slices -/

/-- How the plans fail. -/
inductive WeightPlanError where
  /-- The shards do not make up the weight. -/
  | shardsDoNotTile (key : String)
  /-- The tile is not within the weight. -/
  | tileOutOfRange (key : String)
deriving DecidableEq, Repr

/-- `_shard_key` -/
def shardKey (base : String) (shard : ℕ) : String := base ++ ".shard_" ++ toString shard

/-- `_tile_key` -/
def tileKey (base : String) (tile : ℕ) : String := base ++ ".tile_" ++ toString tile

/-- The array of a weight, if it is a conv weight. -/
def convArray (weights : PyDict String (NdArray ℤ)) (key : String) : Option (NdArray ℤ) :=
  (weights.get? key).filter fun a => a.shape.length = 4

/-- `_apply_shard_weight_plan`, for one entry of the plan: the arrays of the shards. -/
def shardWrites (weights : PyDict String (NdArray ℤ)) (spec : ShardSpec) :
    Except WeightPlanError (List (String × NdArray ℤ)) :=
  match convArray weights spec.weight with
  | none => .ok []
  | some a =>
    if spec.ocPer = 0 ∨ spec.ocPer * spec.nShards ≠ a.shape.headD 0 then
      .error (.shardsDoNotTile spec.weight)
    else .ok ((List.range spec.nShards).map fun t =>
      (shardKey spec.weight t, a.slice (t * spec.ocPer) ((t + 1) * spec.ocPer)))

/-- The arrays that have slices, for one entry of the plan. -/
def shardDrops (weights : PyDict String (NdArray ℤ)) (spec : ShardSpec) : List String :=
  if (convArray weights spec.weight).isSome then [spec.weight] else []

/-- The bias of a tile, if it is there. -/
def tileBias (weights : PyDict String (NdArray ℤ)) (spec : TileSpec) :
    Option (String × NdArray ℤ) :=
  spec.bias.bind fun key => (weights.get? key).map (key, ·)

/-- `_apply_tile_weight_plan`, for one entry of the plan: the arrays of the tile. -/
def tileWrites (weights : PyDict String (NdArray ℤ)) (spec : TileSpec) :
    Except WeightPlanError (List (String × NdArray ℤ)) :=
  match convArray weights spec.weight with
  | none => .ok []
  | some a =>
    if spec.tileOc = 0 ∨ a.shape.headD 0 < (spec.tile + 1) * spec.tileOc then
      .error (.tileOutOfRange spec.weight)
    else
      let lo := spec.tile * spec.tileOc
      let hi := (spec.tile + 1) * spec.tileOc
      .ok ((tileKey spec.weight spec.tile, a.slice lo hi) ::
        (tileBias weights spec).toList.map fun b => (tileKey b.1 spec.tile, b.2.slice lo hi))

/-- The arrays that have slices, for one entry of the plan. -/
def tileDrops (weights : PyDict String (NdArray ℤ)) (spec : TileSpec) : List String :=
  if (convArray weights spec.weight).isSome then
    spec.weight :: (tileBias weights spec).toList.map Prod.fst
  else []

/-! ### What is written -/

/-- `_reads_parent`: the op is no tile, and its weights are not sharded. -/
def ReadsParent (shardPlan : PyDict ℤ ShardSpec) (op : GraphOp) : Prop :=
  ¬op.IsOcTile ∧ ∀ did ∈ op.dispatchId, did ∉ shardPlan.keys

instance (shardPlan : PyDict ℤ ShardSpec) (op : GraphOp) : Decidable (ReadsParent shardPlan op) :=
  inferInstanceAs (Decidable (_ ∧ _))

/-- `still_used`: the arrays that ops read in full. -/
def stillUsed (ops : List GraphOp) (shardPlan : PyDict ℤ ShardSpec) : List (Option String) :=
  (ops.filter fun op => ReadsParent shardPlan op).flatMap fun op =>
    [convWeightOf op, convBiasOf op, op.bias]

/-- `k.startswith("const.")` -/
def isConstKey (key : String) : Bool := "const.".toList.isPrefixOf key.toList

/-- The arrays that have slices. -/
def droppedKeys (weights : PyDict String (NdArray ℤ)) (tilePlan : PyDict ℤ TileSpec)
    (shardPlan : PyDict ℤ ShardSpec) : List String :=
  (tilePlan.items.flatMap fun item => tileDrops weights item.2) ++
    shardPlan.items.flatMap fun item => shardDrops weights item.2

/-- `emit_weights`: the arrays that are written, under their keys. -/
def emitWeights (ops : List GraphOp) (weights : PyDict String (NdArray ℤ))
    (layout : Option WeightLayout) (factor : ℕ) :
    Except WeightPlanError (PyDict String (NdArray ℤ)) := do
  let tilePlan := splitConvTileWeights ops layout
  let shardPlan := shardConvWeights ops layout factor
  let tileArrays ← tilePlan.items.mapM fun item => tileWrites weights item.2
  let shardArrays ← shardPlan.items.mapM fun item => shardWrites weights item.2
  let extra := PyDict.ofList (tileArrays.flatten ++ shardArrays.flatten)
  let drop := droppedKeys weights tilePlan shardPlan
  let kept := weights.items.filter fun item =>
    item.1 ∉ drop ∨ some item.1 ∈ stillUsed ops shardPlan
  let all := if extra.items = [] then weights else PyDict.ofList (kept ++ extra.items)
  return all.mapItems fun key a => if isConstKey key then a else backendPackWeight layout a

/-! ### Conv calls -/

/-- The depthwise convs that say `C` for their channels. -/
def depthwiseConvOps : List String := ["conv2d_dw", "conv2d_dw_f16"]

/-- The convs that are called with their full weights, whatever the plans say. -/
def plainConvOps : List String :=
  ["conv2d", "conv2d_f16", "conv2d_s8_pc", "conv2d_grouped", "conv2d_grouped_f16",
    "depthwise_conv2d_s8", "depthwise_conv2d_f16"] ++ depthwiseConvOps

/-- The op whose fields a conv call reads: the op itself, or its first constituent. -/
def calledConv (op : GraphOp) : Option GraphOp :=
  if op.op = "conv2d_s8" ∨ op.op ∈ plainConvOps then some op
  else if op.op ∈ ocSliceableConvOps then op.subOps.head?
  else none

/-- A size of a conv. -/
def convSize (conv : GraphOp) (key : String) : ℕ := (conv.shape.get? key).getD 0

/-- The output channels that the kernel is called with. -/
def calledChannels (op conv : GraphOp) : ℕ :=
  if op.op ∈ depthwiseConvOps then convSize conv "C"
  else if op.op = "depthwise_conv2d_s8" then
    -- `sh.get("OC") or sh.get("C") or sh.get("groups")`
    if convSize conv "OC" ≠ 0 then convSize conv "OC"
    else if convSize conv "C" ≠ 0 then convSize conv "C"
    else convSize conv "groups"
  else convSize conv "OC"

/-- A call of a conv kernel. -/
structure ConvCall where
  /-- The key of the full weight. -/
  weight : String
  /-- The array that is passed. -/
  symbol : String
  /-- The elements that are added to its address. -/
  offset : ℕ
  /-- The output channels that the kernel is called with. -/
  oc : ℕ
  /-- The first output channel that is computed, of the op that this one was split from. -/
  first : ℕ
deriving DecidableEq, Repr

/-- `int(sf.get("tile", 0))`: the number of a tile. -/
def tileNumber (op : GraphOp) : ℕ := (op.splitFrom.map SplitFrom.tile).getD 0

/-- `_oc_tile_operands`: the call of a tile. A tile of a batch is refused. -/
def tileCalls (ops : List GraphOp) (layout : Option WeightLayout) (op conv : GraphOp)
    (weight : String) (oc : ℕ) : List ConvCall :=
  if (conv.shape.get? "N").getD 1 ≠ 1 then []
  else
    let tile := tileNumber op
    match op.dispatchId.bind (splitConvTileWeights ops layout).get? with
    | some spec => [⟨weight, tileKey spec.weight tile, 0, oc, tile * oc⟩]
    | none =>
      let perFilter := convSize conv "IC" * convSize conv "KH" * convSize conv "KW"
      [⟨weight, weight, tile * oc * perFilter, oc, tile * oc⟩]

/-- The conv calls of an op. -/
def convCalls (ops : List GraphOp) (layout : Option WeightLayout) (factor : ℕ) (op : GraphOp) :
    List ConvCall :=
  match calledConv op with
  | none => []
  | some conv =>
    let weight := conv.weight.getD ""
    let oc := calledChannels op conv
    if op.op ∈ plainConvOps then [⟨weight, weight, 0, oc, 0⟩]
    else
      match op.dispatchId.bind (shardConvWeights ops layout factor).get? with
      | some spec =>
        let base := if op.op = "conv2d_s8" then weight else spec.weight
        (List.range spec.nShards).map fun t =>
          ⟨weight, shardKey base t, 0, spec.ocPer, t * spec.ocPer⟩
      | none =>
        if op.IsOcTile then tileCalls ops layout op conv weight oc
        else [⟨weight, weight, 0, oc, 0⟩]

/-- Where a kernel looks for an element of a weight with `oc` output channels. -/
def kernelIndex (layout : WeightLayout) (oc ic kh kw o i h w : ℕ) : ℕ :=
  match layout with
  | .oihw => ((o * ic + i) * kh + h) * kw + w
  | .hwio => ((h * kw + w) * ic + i) * oc + o
  | .ihwoc => ((i * kh + h) * kw + w) * oc + o

/-- The array that is passed is written, and the kernel finds in it the weights of the output
channels that the call computes. Those are counted from `origin`, where the op begins that this one
was split from. -/
def ConvCall.Sound (weights emitted : PyDict String (NdArray ℤ)) (layout : Option WeightLayout)
    (origin : ℕ) (call : ConvCall) : Prop :=
  ∃ packed full oc ic kh kw, emitted.get? call.symbol = some packed ∧
    weights.get? call.weight = some full ∧ full.shape = [oc, ic, kh, kw] ∧
    origin + call.first + call.oc ≤ oc ∧ ∀ o < call.oc, ∀ i < ic, ∀ h < kh, ∀ w < kw,
      packed.data[call.offset + kernelIndex (layout.getD .oihw) call.oc ic kh kw o i h w]? =
        full.data[kernelIndex .oihw oc ic kh kw (origin + call.first + o) i h w]?

/-- The weights are written, and every conv call reads those of the channels that it computes. An
op that was split from a tile begins where this tile does: at channel `origin` of the weight. -/
def PlanSound (ops : List GraphOp) (weights : PyDict String (NdArray ℤ))
    (layout : Option WeightLayout) (factor : ℕ) (origin : GraphOp → ℕ) : Prop :=
  ∃ emitted, emitWeights ops weights layout factor = .ok emitted ∧
    ∀ op ∈ ops, ∀ call ∈ convCalls ops layout factor op,
      call.Sound weights emitted layout (origin op)

/-! ## Where kernels look for weights -/

/-- The places of two layouts with the output channels innermost are those of arrays whose axes are
permuted. -/
theorem kernelIndex_eq_ravel (oc ic kh kw o i h w : ℕ) :
    kernelIndex .oihw oc ic kh kw o i h w = NdArray.ravel [oc, ic, kh, kw] [o, i, h, w] ∧
      kernelIndex .hwio oc ic kh kw o i h w = NdArray.ravel [kh, kw, ic, oc] [h, w, i, o] ∧
      kernelIndex .ihwoc oc ic kh kw o i h w = NdArray.ravel [ic, kh, kw, oc] [i, h, w, o] := by
  refine ⟨?_, ?_, ?_⟩ <;>
  · simp only [kernelIndex, NdArray.ravel, List.prod_cons, List.prod_nil]
    ring

variable {oc ic kh kw : ℕ} {w h o i offset first' oc' : ℕ} {stored : WeightLayout}

/-- The places of the checkpoint are within its arrays. -/
theorem kernelIndex_lt (ho : o < oc) (hi : i < ic) (hh : h < kh) (hw : w < kw) :
    kernelIndex .oihw oc ic kh kw o i h w < [oc, ic, kh, kw].prod := by
  have hbounds : NdArray.InBounds [oc, ic, kh, kw] [o, i, h, w] :=
    .cons ho (.cons hi (.cons hh (.cons hw .nil)))
  rw [(kernelIndex_eq_ravel oc ic kh kw o i h w).1]
  exact (NdArray.getElem?_indices hbounds).1

/-! ### What is stored -/

/-- The array has the `oc` channels of a weight from `first` on, in the order of a layout. -/
def StoredAs (layout : WeightLayout) (packed full : NdArray ℤ) (first oc ic kh kw : ℕ) : Prop :=
  ∀ j v, packed.data[j]? = some v ↔ ∃ o < oc, ∃ i < ic, ∃ h < kh, ∃ w < kw,
    j = kernelIndex layout oc ic kh kw o i h w ∧
      full.data[kernelIndex .oihw oc ic kh kw (first + o) i h w]? = some v

/-- An index within a shape of four axes. -/
theorem inBounds_four {n₀ n₁ n₂ n₃ : ℕ} {idx : List ℕ} :
    NdArray.InBounds [n₀, n₁, n₂, n₃] idx ↔
      ∃ a < n₀, ∃ b < n₁, ∃ c < n₂, ∃ d < n₃, idx = [a, b, c, d] := by
  constructor
  · intro h
    obtain _ | ⟨h₀, _ | ⟨h₁, _ | ⟨h₂, _ | ⟨h₃, _ | _⟩⟩⟩⟩ := h
    exact ⟨_, h₀, _, h₁, _, h₂, _, h₃, rfl⟩
  · rintro ⟨a, h₀, b, h₁, c, h₂, d, h₃, rfl⟩
    exact .cons h₀ (.cons h₁ (.cons h₂ (.cons h₃ .nil)))

variable {a : NdArray ℤ}

/-- Every element of a weight has a place. -/
theorem exists_getElem?_of_shape (hshape : a.shape = [oc, ic, kh, kw]) (ho : o < oc) (hi : i < ic)
    (hh : h < kh) (hw : w < kw) :
    ∃ v, a.data[kernelIndex .oihw oc ic kh kw o i h w]? = some v := by
  have hlt := kernelIndex_lt ho hi hh hw
  rw [← hshape, ← a.size_eq] at hlt
  exact ⟨_, List.getElem?_eq_getElem hlt⟩

/-- An array has its own channels, in the order of the checkpoint. -/
theorem storedAs_self (hshape : a.shape = [oc, ic, kh, kw]) :
    StoredAs .oihw a a 0 oc ic kh kw := by
  intro j v
  constructor
  · intro hget
    have hj : j < [oc, ic, kh, kw].prod := by
      rw [← hshape, ← a.size_eq]
      exact (List.getElem?_eq_some_iff.mp hget).1
    obtain ⟨idx, hidx, rfl⟩ := NdArray.exists_ravel_eq hj
    obtain ⟨o, ho, i, hi, h, hh, w, hw, rfl⟩ := inBounds_four.mp hidx
    rw [← (kernelIndex_eq_ravel oc ic kh kw o i h w).1] at hget ⊢
    exact ⟨o, ho, i, hi, h, hh, w, hw, rfl, by rwa [Nat.zero_add]⟩
  · rintro ⟨o, -, i, -, h, -, w, -, rfl, hget⟩
    rwa [Nat.zero_add] at hget

variable {layout : WeightLayout}

/-- The elements of an array, transposed to another layout. -/
theorem storedAs_transpose (hshape : a.shape = [oc, ic, kh, kw]) {perm : List ℕ}
    (hperm : layoutPermutation layout = some perm) :
    StoredAs layout (a.transpose perm) a 0 oc ic kh kw := by
  intro j v
  have hread : ∀ {o i h w}, o < oc → i < ic → h < kh → w < kw →
      (a.data.getD (kernelIndex .oihw oc ic kh kw o i h w) default = v ↔
        a.data[kernelIndex .oihw oc ic kh kw (0 + o) i h w]? = some v) := by
    intro o i h w ho hi hh hw
    obtain ⟨u, hu⟩ := exists_getElem?_of_shape hshape ho hi hh hw
    rw [Nat.zero_add, List.getD_eq_getElem?_getD, hu, Option.getD_some, Option.some_inj]
  rw [NdArray.getElem?_data_transpose, hshape]
  cases layout with
  | oihw => cases hperm
  | hwio =>
    cases hperm
    -- The axes of the result are `kh`, `kw`, `ic` and `oc`.
    constructor
    · rintro ⟨idx, hidx, rfl, hv⟩
      obtain ⟨h, hh, w, hw, i, hi, o, ho, rfl⟩ := inBounds_four.mp hidx
      rw [show NdArray.unpermute [2, 3, 1, 0] [h, w, i, o] = [o, i, h, w] from rfl,
        ← (kernelIndex_eq_ravel oc ic kh kw o i h w).1, hread ho hi hh hw] at hv
      exact ⟨o, ho, i, hi, h, hh, w, hw, (kernelIndex_eq_ravel oc ic kh kw o i h w).2.1.symm, hv⟩
    · rintro ⟨o, ho, i, hi, h, hh, w, hw, rfl, hv⟩
      refine ⟨[h, w, i, o], inBounds_four.mpr ⟨h, hh, w, hw, i, hi, o, ho, rfl⟩,
        (kernelIndex_eq_ravel oc ic kh kw o i h w).2.1, ?_⟩
      rw [show NdArray.unpermute [2, 3, 1, 0] [h, w, i, o] = [o, i, h, w] from rfl,
        ← (kernelIndex_eq_ravel oc ic kh kw o i h w).1, hread ho hi hh hw]
      exact hv
  | ihwoc =>
    cases hperm
    constructor
    · rintro ⟨idx, hidx, rfl, hv⟩
      obtain ⟨i, hi, h, hh, w, hw, o, ho, rfl⟩ := inBounds_four.mp hidx
      rw [show NdArray.unpermute [1, 2, 3, 0] [i, h, w, o] = [o, i, h, w] from rfl,
        ← (kernelIndex_eq_ravel oc ic kh kw o i h w).1, hread ho hi hh hw] at hv
      exact ⟨o, ho, i, hi, h, hh, w, hw, (kernelIndex_eq_ravel oc ic kh kw o i h w).2.2.symm, hv⟩
    · rintro ⟨o, ho, i, hi, h, hh, w, hw, rfl, hv⟩
      refine ⟨[i, h, w, o], inBounds_four.mpr ⟨i, hi, h, hh, w, hw, o, ho, rfl⟩,
        (kernelIndex_eq_ravel oc ic kh kw o i h w).2.2, ?_⟩
      rw [show NdArray.unpermute [1, 2, 3, 0] [i, h, w, o] = [o, i, h, w] from rfl,
        ← (kernelIndex_eq_ravel oc ic kh kw o i h w).1, hread ho hi hh hw]
      exact hv

/-- A packed array has its own channels, in the order of the backend. -/
theorem storedAs_backendPackWeight (hshape : a.shape = [oc, ic, kh, kw])
    (layout : Option WeightLayout) :
    StoredAs (layout.getD .oihw) (backendPackWeight layout a) a 0 oc ic kh kw := by
  have hfour : ¬a.shape.length ≠ 4 := by simp [hshape]
  rw [backendPackWeight, if_neg hfour]
  cases layout with
  | none => exact storedAs_self hshape
  | some layout =>
    cases hperm : layoutPermutation layout with
    | none =>
      cases layout with
      | oihw => exact storedAs_self hshape
      | hwio => cases hperm
      | ihwoc => cases hperm
    | some perm =>
      simp only [Option.bind_some, hperm]
      exact storedAs_transpose hshape hperm

variable {packed full : NdArray ℤ} {total first : ℕ}

/-- What is stored of a slice is stored of the array. -/
theorem StoredAs.of_slice (hshape : full.shape = [total, ic, kh, kw]) (hle : first + oc ≤ total)
    (h : StoredAs layout packed (full.slice first (first + oc)) 0 oc ic kh kw) :
    StoredAs layout packed full first oc ic kh kw := by
  intro j v
  rw [h j v]
  -- The elements of the slice are those of the array, moved by the channels in front of it.
  have hmoved : ∀ {o i h w}, o < oc → i < ic → h < kh → w < kw →
      (full.slice first (first + oc)).data[kernelIndex .oihw oc ic kh kw (0 + o) i h w]? =
        full.data[kernelIndex .oihw oc ic kh kw (first + o) i h w]? := by
    intro o i h w ho hi hh hw
    have hlt := kernelIndex_lt ho hi hh hw
    rw [Nat.zero_add, NdArray.getElem?_data_slice hshape hle (by rwa [Nat.add_sub_cancel_left])]
    congr 1
    simp only [kernelIndex, List.prod_cons, List.prod_nil]
    ring
  constructor
  · rintro ⟨o, ho, i, hi, h, hh, w, hw, hj, hv⟩
    exact ⟨o, ho, i, hi, h, hh, w, hw, hj, (hmoved ho hi hh hw) ▸ hv⟩
  · rintro ⟨o, ho, i, hi, h, hh, w, hw, hj, hv⟩
    exact ⟨o, ho, i, hi, h, hh, w, hw, hj, (hmoved ho hi hh hw).symm ▸ hv⟩

/-! ### What is found -/

/-- Every place that a kernel looks at is that of the channel that it means. The kernel has `oc`
channels, from `first` on, and starts at an offset. The array has `oc'` of them, from `first'`
on. -/
def RightPlaces (layout stored : WeightLayout) (offset first oc first' oc' ic kh kw : ℕ) : Prop :=
  ∀ o < oc, ∀ i < ic, ∀ h < kh, ∀ w < kw, ∃ o' < oc', first' + o' = first + o ∧
    offset + kernelIndex layout oc ic kh kw o i h w = kernelIndex stored oc' ic kh kw o' i h w

/-- At the right places, a kernel finds its weights. -/
theorem StoredAs.reads (h : StoredAs stored packed full first' oc' ic kh kw)
    (hshape : full.shape = [total, ic, kh, kw]) (hle : first + oc ≤ total)
    (hplaces : RightPlaces layout stored offset first oc first' oc' ic kh kw) :
    ∀ o < oc, ∀ i < ic, ∀ h < kh, ∀ w < kw,
      packed.data[offset + kernelIndex layout oc ic kh kw o i h w]? =
        full.data[kernelIndex .oihw total ic kh kw (first + o) i h w]? := by
  intro o ho i hi x hx w hw
  obtain ⟨o', ho', hchannel, hindex⟩ := hplaces o ho i hi x hx w hw
  obtain ⟨v, hv⟩ := exists_getElem?_of_shape hshape
    (Nat.lt_of_lt_of_le (Nat.add_lt_add_left ho first) hle) hi hx hw
  rw [hv]
  refine (h _ v).mpr ⟨o', ho', i, hi, x, hx, w, hw, hindex, ?_⟩
  rw [hchannel]
  exact hv

/-- Two elements of a weight are at two places. -/
theorem kernelIndex_oihw_inj {oc ic kh kw o i h w o' i' h' w' : ℕ} (hi : i < ic) (hi' : i' < ic)
    (hh : h < kh) (hh' : h' < kh) (hw : w < kw) (hw' : w' < kw)
    (heq : kernelIndex .oihw oc ic kh kw o i h w = kernelIndex .oihw oc ic kh kw o' i' h' w') :
    o = o' ∧ i = i' ∧ h = h' ∧ w = w' := by
  have hindex : ((o * ic + i) * kh + h) * kw + w = ((o' * ic + i') * kh + h') * kw + w' := heq
  obtain ⟨hrow, rfl⟩ := PyList.mul_add_inj hw hw' hindex
  obtain ⟨hplane, rfl⟩ := PyList.mul_add_inj hh hh' hrow
  obtain ⟨rfl, rfl⟩ := PyList.mul_add_inj hi hi' hplane
  exact ⟨rfl, rfl, rfl, rfl⟩

/-- When all elements of a weight differ, a kernel finds them at the right places only. -/
theorem StoredAs.rightPlaces (h : StoredAs stored packed full first' oc' ic kh kw)
    (hshape : full.shape = [total, ic, kh, kw]) (hle : first + oc ≤ total) (hnd : full.data.Nodup)
    (hreads : ∀ o < oc, ∀ i < ic, ∀ h < kh, ∀ w < kw, packed.data[offset + kernelIndex layout oc ic kh kw o i h w]? = full.data[kernelIndex .oihw total ic kh kw (first + o) i h w]?)
    :
    RightPlaces layout stored offset first oc first' oc' ic kh kw := by
  intro o ho i hi x hx w hw
  obtain ⟨v, hv⟩ := exists_getElem?_of_shape hshape
    (Nat.lt_of_lt_of_le (Nat.add_lt_add_left ho first) hle) hi hx hw
  obtain ⟨o', ho', i', hi', x', hx', w', hw', hindex, hv'⟩ :=
    (h _ v).mp ((hreads o ho i hi x hx w hw).trans hv)
  -- The element that is there is the one that is meant, as there is no other like it.
  have hpos := (List.getElem?_inj (List.getElem?_eq_some_iff.mp hv').1 hnd).mp (hv'.trans hv.symm)
  obtain ⟨hchannel, rfl, rfl, rfl⟩ := kernelIndex_oihw_inj hi' hi hx' hx hw' hw hpos
  exact ⟨o', ho', hchannel, hindex⟩

/-! ### The right places -/

section
variable {layout stored : WeightLayout} {first oc first' oc' ic kh kw : ℕ}

/-- The first element of a channel is at the start of the array for the first channel only. -/
private theorem eq_zero_of_kernelIndex_eq_zero {o : ℕ} (hic : 0 < ic) (hkh : 0 < kh) (hkw : 0 < kw)
    (h : kernelIndex stored oc' ic kh kw o 0 0 0 = 0) : o = 0 := by
  cases stored with
  | oihw =>
    simp only [kernelIndex, Nat.add_zero, Nat.mul_eq_zero] at h
    omega
  | hwio => simpa [kernelIndex] using h
  | ihwoc => simpa [kernelIndex] using h

/-- Without an offset, the places are right when the array begins with the channels of the kernel,
has all of them, and has every element where the kernel looks for it. -/
theorem rightPlaces_iff (hoc : 0 < oc) (hic : 0 < ic) (hkh : 0 < kh) (hkw : 0 < kw) :
    RightPlaces layout stored 0 first oc first' oc' ic kh kw ↔
      first' = first ∧ oc ≤ oc' ∧ ∀ o < oc, ∀ i < ic, ∀ h < kh, ∀ w < kw,
        kernelIndex layout oc ic kh kw o i h w = kernelIndex stored oc' ic kh kw o i h w := by
  constructor
  · intro h
    have hfirst : first' = first := by
      obtain ⟨o', -, hchannel, hindex⟩ := h 0 hoc 0 hic 0 hkh 0 hkw
      have hzero : kernelIndex layout oc ic kh kw 0 0 0 0 = 0 := by
        cases layout <;> simp [kernelIndex]
      rw [hzero, Nat.zero_add] at hindex
      have ho' := eq_zero_of_kernelIndex_eq_zero hic hkh hkw hindex.symm
      omega
    refine ⟨hfirst, ?_, ?_⟩
    · obtain ⟨o', ho', hchannel, -⟩ := h (oc - 1) (by omega) 0 hic 0 hkh 0 hkw
      omega
    · intro o ho i hi x hx w hw
      obtain ⟨o', -, hchannel, hindex⟩ := h o ho i hi x hx w hw
      obtain rfl : o' = o := by omega
      rwa [Nat.zero_add] at hindex
  · rintro ⟨rfl, hle, hindex⟩ o ho i hi x hx w hw
    refine ⟨o, Nat.lt_of_lt_of_le ho hle, rfl, ?_⟩
    rw [Nat.zero_add]
    exact hindex o ho i hi x hx w hw

/-- The place of an element among those of its channel, or among those that a backend stores the
channels of next to each other. -/
private def filterIndex (layout : WeightLayout) (ic kh kw i h w : ℕ) : ℕ :=
  match layout with
  | .oihw | .ihwoc => (i * kh + h) * kw + w
  | .hwio => (h * kw + w) * ic + i

/-- On a backend that repacks weights, the channels are innermost. -/
private theorem kernelIndex_of_ne_oihw (hne : layout ≠ .oihw) (o i h w : ℕ) :
    kernelIndex layout oc ic kh kw o i h w = filterIndex layout ic kh kw i h w * oc + o := by
  cases layout with
  | oihw => exact absurd rfl hne
  | hwio => rfl
  | ihwoc => rfl

/-- The first element of a channel is the only one at the start. -/
private theorem eq_zero_of_filterIndex_eq_zero {i h w : ℕ} (hic : 0 < ic) (hkh : 0 < kh)
    (hkw : 0 < kw) (hzero : filterIndex layout ic kh kw i h w = 0) : i = 0 ∧ h = 0 ∧ w = 0 := by
  cases layout with
  | oihw | ihwoc | hwio =>
    simp only [filterIndex, Nat.add_eq_zero_iff, Nat.mul_eq_zero] at hzero
    omega

/-- A kernel and an array of one layout agree when they have as many channels, or when a channel is
one element. In the order of the checkpoint they always do. -/
theorem rightPlaces_packed_iff (hoc : 0 < oc) (hic : 0 < ic) (hkh : 0 < kh) (hkw : 0 < kw) :
    RightPlaces layout layout 0 first oc first' oc' ic kh kw ↔
      first' = first ∧ oc ≤ oc' ∧ (layout = .oihw ∨ oc = oc' ∨ ic = 1 ∧ kh = 1 ∧ kw = 1) := by
  rw [rightPlaces_iff hoc hic hkh hkw]
  refine and_congr_right fun _ => and_congr_right fun _ => ?_
  by_cases hne : layout = .oihw
  · subst hne
    exact iff_of_true (fun _ _ _ _ _ _ _ _ => rfl) (.inl rfl)
  simp only [kernelIndex_of_ne_oihw hne, Nat.add_right_cancel_iff]
  constructor
  · intro h
    refine .inr (or_iff_not_imp_left.mpr fun hneq => ?_)
    -- An element that is not the first would be at two places.
    have hfirst : ∀ i < ic, ∀ x < kh, ∀ w < kw, i = 0 ∧ x = 0 ∧ w = 0 := by
      intro i hi x hx w hw
      by_contra hnot
      have hpos : filterIndex layout ic kh kw i x w ≠ 0 := fun hzero =>
        hnot (eq_zero_of_filterIndex_eq_zero hic hkh hkw hzero)
      exact hneq (Nat.eq_of_mul_eq_mul_left (Nat.pos_of_ne_zero hpos) (h 0 hoc i hi x hx w hw))
    have hi := hfirst (ic - 1) (by omega) 0 hkh 0 hkw
    have hx := hfirst 0 hic (kh - 1) (by omega) 0 hkw
    have hw := hfirst 0 hic 0 hkh (kw - 1) (by omega)
    omega
  · rintro (hoihw | rfl | ⟨rfl, rfl, rfl⟩) o ho i hi x hx w hw
    · exact absurd hoihw hne
    · rfl
    · obtain rfl : i = 0 := by omega
      obtain rfl : x = 0 := by omega
      obtain rfl : w = 0 := by omega
      cases layout <;> simp [filterIndex]

/-- The layout orders weights of these sizes as the checkpoint does. -/
def SameOrder (layout : WeightLayout) (oc ic kh kw : ℕ) : Prop :=
  match layout with
  | .oihw => True
  | .hwio => ic * kh * kw = 1 ∨ oc = 1 ∧ (ic = 1 ∨ kh * kw = 1)
  | .ihwoc => ic * kh * kw = 1 ∨ oc = 1

instance (layout : WeightLayout) (oc ic kh kw : ℕ) : Decidable (SameOrder layout oc ic kh kw) :=
  match layout with
  | .oihw => inferInstanceAs (Decidable True)
  | .hwio => inferInstanceAs (Decidable (_ ∨ _ ∧ (_ ∨ _)))
  | .ihwoc => inferInstanceAs (Decidable (_ ∨ _))

/-- A kernel that expects packed weights agrees with an array in the order of the checkpoint when
the layout does not tell them apart. -/
theorem rightPlaces_unpacked_iff (hoc : 0 < oc) (hic : 0 < ic) (hkh : 0 < kh) (hkw : 0 < kw) :
    RightPlaces layout .oihw 0 first oc first' oc' ic kh kw ↔
      first' = first ∧ oc ≤ oc' ∧ SameOrder layout oc ic kh kw := by
  rw [rightPlaces_iff hoc hic hkh hkw]
  refine and_congr_right fun _ => and_congr_right fun _ => ?_
  -- The second channel starts at the second place in one order, and behind the first in the other.
  have hchannels : layout ≠ .oihw → 1 < oc → (∀ o < oc, ∀ i < ic, ∀ h < kh, ∀ w < kw,
        kernelIndex layout oc ic kh kw o i h w = kernelIndex .oihw oc' ic kh kw o i h w) →
      ic * kh * kw = 1 := by
    intro hne hmany h
    have hsecond := h 1 hmany 0 hic 0 hkh 0 hkw
    have hzero : filterIndex layout ic kh kw 0 0 0 = 0 := by cases layout <;> simp [filterIndex]
    rw [kernelIndex_of_ne_oihw hne, hzero] at hsecond
    simpa [kernelIndex] using hsecond.symm
  have hone : ic * kh * kw = 1 → ∀ o < oc, ∀ i < ic, ∀ h < kh, ∀ w < kw,
      kernelIndex layout oc ic kh kw o i h w = kernelIndex .oihw oc' ic kh kw o i h w := by
    intro hprod o ho i hi x hx w hw
    have hplane := Nat.eq_one_of_mul_eq_one_right hprod
    have hic1 : ic = 1 := Nat.eq_one_of_mul_eq_one_right hplane
    have hkh1 : kh = 1 := Nat.eq_one_of_mul_eq_one_left hplane
    have hkw1 : kw = 1 := Nat.eq_one_of_mul_eq_one_left hprod
    obtain rfl : i = 0 := by omega
    obtain rfl : x = 0 := by omega
    obtain rfl : w = 0 := by omega
    cases layout <;> simp [kernelIndex, hic1, hkh1, hkw1]
  cases layout with
  | oihw => exact iff_of_true (fun _ _ _ _ _ _ _ _ => rfl) trivial
  | ihwoc =>
    constructor
    · intro h
      refine or_iff_not_imp_right.mpr fun hmany => ?_
      exact hchannels (by simp) (by omega) h
    · rintro (hprod | rfl)
      · exact hone hprod
      · intro o ho i hi x hx w hw
        obtain rfl : o = 0 := by omega
        simp [kernelIndex]
  | hwio =>
    constructor
    · intro h
      refine or_iff_not_imp_left.mpr fun hprod => ?_
      have hsingle : oc = 1 := by
        by_contra hmany
        exact hprod (hchannels (by simp) (by omega) h)
      refine ⟨hsingle, or_iff_not_imp_left.mpr fun hinputs => ?_⟩
      have hinput := h 0 hoc 1 (by omega) 0 hkh 0 hkw
      simpa [kernelIndex, hsingle] using hinput.symm
    · rintro (hprod | ⟨rfl, rfl | hplane⟩)
      · exact hone hprod
      · intro o ho i hi x hx w hw
        obtain rfl : o = 0 := by omega
        obtain rfl : i = 0 := by omega
        simp [kernelIndex]
      · intro o ho i hi x hx w hw
        have hkh1 : kh = 1 := Nat.eq_one_of_mul_eq_one_right hplane
        have hkw1 : kw = 1 := Nat.eq_one_of_mul_eq_one_left hplane
        obtain rfl : o = 0 := by omega
        obtain rfl : x = 0 := by omega
        obtain rfl : w = 0 := by omega
        simp [kernelIndex, hkh1, hkw1]

/-- Where weights are stored as in the checkpoint, an offset leads to the channels that are as many
elements in. -/
theorem rightPlaces_offset_iff {channels total : ℕ} (hle : channels + oc ≤ total) (hoc : 0 < oc)
    (hic : 0 < ic) (hkh : 0 < kh) (hkw : 0 < kw) :
    RightPlaces .oihw .oihw (channels * (ic * kh * kw)) first oc 0 total ic kh kw ↔
      first = channels := by
  have hmoved : ∀ o i x w, channels * (ic * kh * kw) + kernelIndex .oihw oc ic kh kw o i x w =
      kernelIndex .oihw total ic kh kw (channels + o) i x w := by
    intro o i x w
    simp only [kernelIndex]
    ring
  constructor
  · intro h
    obtain ⟨o', -, hchannel, hindex⟩ := h 0 hoc 0 hic 0 hkh 0 hkw
    rw [hmoved] at hindex
    have heq := (@kernelIndex_oihw_inj total _ _ _ _ _ _ _ _ _ _ _ hic hic hkh hkh hkw hkw hindex).1
    omega
  · rintro rfl o ho i hi x hx w hw
    exact ⟨first + o, by omega, Nat.zero_add _, hmoved o i x w⟩

end

end ModelBlaster

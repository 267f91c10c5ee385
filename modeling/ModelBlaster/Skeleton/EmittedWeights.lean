import ModelBlaster.Library.PyStr
import ModelBlaster.Skeleton.Weights

/-!
# Which weights are written

The keys of slices are read back: a slice key says which key it was made of and which number it has.
So the arrays that are written under a slice key come from ops with one weight and one number, and
the last of these decides. The array of a full weight that an op reads is among those that are
written.

## Main definitions

* `ConvReads`: what the generator may rely on when it calls a conv;
* `WeightInputs`: every conv is such, and no key of a weight looks like that of a slice;
* `lastTile`, `lastShards`: the ops whose arrays are written under a slice key.

## Main results

* `exists_emitWeights_eq_ok`: the weights are written;
* `get?_emitted_tile`, `get?_emitted_shard`, `get?_emitted_whole`: what is written under a key.
-/

namespace ModelBlaster

open List PyDict

/-! ### Keys of slices -/

/-- A slice key has a stem, an underscore and a number. -/
private theorem sliceKey_eq (base stem : String) (t : ℕ) :
    base ++ (stem ++ "_") ++ toString t = (base ++ stem) ++ ("" ++ "_") ++ toString (t : ℤ) := by
  rw [String.empty_append, ← String.append_assoc]
  rfl

variable {t : ℕ} {b a : String} {u factor : ℕ} {z : GraphOp} {layout : Option WeightLayout}

/-- The key of a tile determines the key of the array and the number of the tile. -/
theorem tileKey_inj : tileKey a t = tileKey b u ↔ a = b ∧ t = u := by
  constructor
  · intro h
    have hsplit : a ++ (".tile" ++ "_") ++ toString (t : ℤ) =
        b ++ (".tile" ++ "_") ++ toString (u : ℤ) := h
    have hinj := Decimal.append_toString_inj hsplit
    exact ⟨hinj.1, Int.ofNat_inj.mp hinj.2⟩
  · rintro ⟨rfl, rfl⟩
    rfl

/-- The key of a shard determines the key of the array and the number of the shard. -/
theorem shardKey_inj : shardKey a t = shardKey b u ↔ a = b ∧ t = u := by
  constructor
  · intro h
    have hsplit : a ++ (".shard" ++ "_") ++ toString (t : ℤ) =
        b ++ (".shard" ++ "_") ++ toString (u : ℤ) := h
    have hinj := Decimal.append_toString_inj hsplit
    exact ⟨hinj.1, Int.ofNat_inj.mp hinj.2⟩
  · rintro ⟨rfl, rfl⟩
    rfl

/-- No array is both a tile and a shard. -/
theorem tileKey_ne_shardKey (a b : String) (t u : ℕ) : tileKey a t ≠ shardKey b u := by
  intro h
  have hsplit : (a ++ ".tile") ++ ("" ++ "_") ++ toString (t : ℤ) =
      (b ++ ".shard") ++ ("" ++ "_") ++ toString (u : ℤ) :=
    calc _ = tileKey a t := (sliceKey_eq a ".tile" t).symm
      _ = shardKey b u := h
      _ = _ := sliceKey_eq b ".shard" u
  have hstem := (Decimal.append_toString_inj hsplit).1
  -- The stems end in different letters.
  have hlast := congrArg (fun s : String => s.toList.getLast?) hstem
  simp only [String.toList_append, getLast?_append] at hlast
  have htile : ".tile".toList.getLast? = some 'e' := by decide
  have hshard : ".shard".toList.getLast? = some 'd' := by decide
  rw [htile, hshard] at hlast
  cases hlast

/-- A slice has another key than the array. -/
theorem ne_sliceKey_self (key : String) (t : ℕ) : key ≠ tileKey key t ∧ key ≠ shardKey key t := by
  have hlonger : ∀ {stem : String}, stem.toList ≠ [] → key ≠ key ++ stem ++ toString t := by
    intro stem hstem heq
    have hlength := congrArg (fun s : String => s.toList.length) heq
    simp only [String.toList_append, length_append] at hlength
    have hpos := length_pos_of_ne_nil hstem
    omega
  exact ⟨hlonger (by decide), hlonger (by decide)⟩

/-- A prefix of a string that goes on. -/
private theorem isPrefixOf_append {p m : List Char} (hle : p.length ≤ m.length) (d : List Char) :
    p.isPrefixOf (m ++ d) = p.isPrefixOf m := by
  rw [Bool.eq_iff_iff, isPrefixOf_iff_prefix, isPrefixOf_iff_prefix]
  refine ⟨fun h => ?_, fun h => h.trans (prefix_append m d)⟩
  exact prefix_of_prefix_length_le h (prefix_append m d) hle

/-- Whether a shard is repacked does not depend on its number. -/
theorem isConstKey_shardKey (base : String) (t u : ℕ) :
    isConstKey (shardKey base t) = isConstKey (shardKey base u) := by
  have hle : "const.".toList.length ≤ (base ++ ".shard_").toList.length := by
    rw [String.toList_append, length_append]
    exact Nat.le_trans (by decide : "const.".toList.length ≤ ".shard_".toList.length)
      (Nat.le_add_left _ _)
  have hread : ∀ t, isConstKey (shardKey base t) =
      "const.".toList.isPrefixOf (base ++ ".shard_").toList := by
    intro t
    show "const.".toList.isPrefixOf (base ++ ".shard_" ++ toString t).toList = _
    rw [String.toList_append]
    exact isPrefixOf_append hle _
  rw [hread t, hread u]
/-! ### What the generator relies on -/

/-- What the generator relies on when it calls a conv: the call reads the weight that the planner
looks at, with the sizes that the op says. -/
structure ConvReads (weights : PyDict String (NdArray ℤ)) (origin : ℕ) (op conv : GraphOp)
    (key : String) (total ic kh kw : ℕ) : Prop where
  /-- The op is a dispatch. -/
  dispatched : op.dispatchId ≠ none
  /-- The call reads a weight. -/
  weight : conv.weight = some key
  /-- The planner looks at the same weight. -/
  weightOf : convWeightOf op = some key
  /-- The planner looks at the same sizes. -/
  shapeOf : convShapeOf op = conv.shape
  /-- The weight is there, with its sizes. -/
  filters : ∃ full, weights.get? key = some full ∧ full.shape = [total, ic, kh, kw]
  /-- The call computes something. -/
  channels_pos : 0 < calledChannels op conv
  ic_pos : 0 < ic
  kh_pos : 0 < kh
  kw_pos : 0 < kw
  /-- Unless the op is a tile, it computes all channels. -/
  whole : ¬op.IsOcTile → origin = 0 ∧ calledChannels op conv = total
  /-- Only the convs with an operand for the weight are split, and only without a batch. A tile
  computes channels that there are. -/
  tile : op.IsOcTile → op.op ∈ ocSliceableConvOps ∧ (conv.shape.get? "N").getD 1 = 1 ∧
    convSize conv "IC" = ic ∧ convSize conv "KH" = kh ∧ convSize conv "KW" = kw ∧
    origin + (tileNumber op + 1) * calledChannels op conv ≤ total

/-- Inputs that the generator may rely on. -/
structure WeightInputs (ops : List GraphOp) (weights : PyDict String (NdArray ℤ))
    (origin : GraphOp → ℕ) : Prop where
  /-- Dispatch ids are distinct. -/
  nodup : (dispatchIds ops).Nodup
  /-- A conv that may be sliced has a call. -/
  called : ∀ op ∈ ops, op.op ∈ ocSliceableConvOps → ∃ conv, calledConv op = some conv
  /-- Every conv that is called reads its weight. -/
  reads : ∀ op ∈ ops, ∀ conv, calledConv op = some conv →
    ∃ key total ic kh kw, ConvReads weights (origin op) op conv key total ic kh kw
  /-- No weight of a conv has a key that a slice of a conv has. -/
  fresh : ∀ a ∈ ops, ∀ b ∈ ops, ∀ key base, convWeightOf a = some key →
    (convWeightOf b = some base ∨ convBiasOf b = some base) → ∀ t,
      key ≠ tileKey base t ∧ key ≠ shardKey base t
  /-- No bias of a conv is the weight of one. -/
  biasApart : ∀ a ∈ ops, ∀ b ∈ ops, ∀ key, convWeightOf a = some key → convBiasOf b ≠ some key

/-! ### Entries of the plans -/

/-- The op is a tile that the planner looks at. -/
def IsConvTile (op : GraphOp) : Prop := op.IsOcTile ∧ op.op ∈ ocSliceableConvOps

instance (op : GraphOp) : Decidable (IsConvTile op) := inferInstanceAs (Decidable (_ ∧ _))

/-- The op is sharded: the backend repacks weights, and the width that the op asks for is more than
one and divides its channels. -/
def IsSharded (layout : Option WeightLayout) (factor : ℕ) (op : GraphOp) : Prop :=
  Repacks layout ∧ Shardable op ∧ 1 < factorFor factor op ∧
    factorFor factor op ∣ convOutputChannels op

instance (layout : Option WeightLayout) (factor : ℕ) (op : GraphOp) :
    Decidable (IsSharded layout factor op) := inferInstanceAs (Decidable (_ ∧ _ ∧ _ ∧ _))

/-- The last of the tiles with a weight and a number. -/
def lastTile (ops : List GraphOp) (key : String) (t : ℕ) : Option GraphOp :=
  (ops.filter fun op => IsConvTile op ∧ convWeightOf op = some key ∧ tileNumber op = t).getLast?

/-- The last of the sharded ops with a weight that have a shard of a number. -/
def lastShards (ops : List GraphOp) (layout : Option WeightLayout) (factor : ℕ) (key : String)
    (t : ℕ) : Option GraphOp :=
  (ops.filter fun op => IsSharded layout factor op ∧ convWeightOf op = some key ∧
    t < factorFor factor op).getLast?

variable {ops : List GraphOp} {key : String}

/-- What the last tile is. -/
theorem of_lastTile_eq_some (h : lastTile ops key t = some z) :
    z ∈ ops ∧ IsConvTile z ∧ convWeightOf z = some key ∧ tileNumber z = t := by
  obtain ⟨hmem, hz⟩ := mem_filter.mp (mem_of_getLast? h)
  exact ⟨hmem, of_decide_eq_true hz⟩

variable {op : GraphOp}

/-- A tile with a weight and a number has a last one. -/
theorem exists_lastTile (hop : op ∈ ops) (htile : IsConvTile op) (hkey : convWeightOf op = some key)
    :
    ∃ z, lastTile ops key (tileNumber op) = some z := by
  apply Option.ne_none_iff_exists'.mp
  rw [lastTile, Ne, getLast?_eq_none_iff]
  exact ne_nil_of_mem (mem_filter.mpr ⟨hop, decide_eq_true ⟨htile, hkey, rfl⟩⟩)

/-- What the last sharded op is. -/
theorem of_lastShards_eq_some (h : lastShards ops layout factor key t = some z) :
    z ∈ ops ∧ IsSharded layout factor z ∧ convWeightOf z = some key ∧ t < factorFor factor z := by
  obtain ⟨hmem, hz⟩ := mem_filter.mp (mem_of_getLast? h)
  exact ⟨hmem, of_decide_eq_true hz⟩

/-- A shard with a weight and a number has a last op. -/
theorem exists_lastShards (hop : op ∈ ops) (hsharded : IsSharded layout factor op)
    (hkey : convWeightOf op = some key) (ht : t < factorFor factor op) :
    ∃ z, lastShards ops layout factor key t = some z := by
  apply Option.ne_none_iff_exists'.mp
  rw [lastShards, Ne, getLast?_eq_none_iff]
  exact ne_nil_of_mem (mem_filter.mpr ⟨hop, decide_eq_true ⟨hsharded, hkey, ht⟩⟩)

/-- A tile has an entry. -/
theorem tileEntry_eq_some {did : ℤ} (htile : op.IsOcTile) (hdid : op.dispatchId = some did)
    (hkey : convWeightOf op = some key) :
    ∃ n, tileEntry op =
      some (did, ⟨key, convBiasOf op, tileNumber op, n, convOutputChannels op⟩) := by
  cases hsplit : op.splitFrom with
  | none =>
    rw [GraphOp.IsOcTile, hsplit] at htile
    cases htile
  | some sf =>
    refine ⟨sf.nSplits, ?_⟩
    rw [tileEntry, hsplit, hdid, hkey, tileNumber, hsplit]
    rfl

/-- The planner counts the channels that the call has. -/
theorem calledChannels_of_sliceable {conv : GraphOp} (hop : op.op ∈ ocSliceableConvOps)
    (hshape : convShapeOf op = conv.shape) : calledChannels op conv = convOutputChannels op := by
  have hdw : op.op ∉ depthwiseConvOps := by
    intro hmem
    have hdisj : ∀ kind ∈ ocSliceableConvOps, kind ∉ depthwiseConvOps := by decide
    exact hdisj op.op hop hmem
  have hs8 : op.op ≠ "depthwise_conv2d_s8" := by
    rintro heq
    rw [heq] at hop
    exact absurd hop (by decide)
  rw [calledChannels, if_neg hdw, if_neg hs8, convSize, convOutputChannels, hshape]

/-- The entries of the tiles. -/
theorem items_splitConvTileWeights (hnd : (dispatchIds ops).Nodup) (layout : Option WeightLayout) :
    (splitConvTileWeights ops layout).items =
      if Repacks layout then (ops.filter fun op => IsConvTile op).filterMap tileEntry else [] := by
  unfold splitConvTileWeights
  simp only
  have hentries := nodup_entries hnd (fun op did spec (h : tileEntry op = some (did, spec)) =>
    dispatchId_of_tileEntry h) IsConvTile
  by_cases hlayout : Repacks layout
  · rw [if_pos hlayout]
    split_ifs with hnone
    · have hempty : (ops.filter fun op => IsConvTile op) = [] :=
        hnone.resolve_right fun h => h hlayout
      rw [hempty]
      rfl
    · exact items_ofList hentries
  · rw [if_neg hlayout, if_pos (.inr hlayout)]
    rfl

/-- The entries of the sharded ops. -/
theorem items_shardConvWeights (hnd : (dispatchIds ops).Nodup) (layout : Option WeightLayout)
    (factor : ℕ) : (shardConvWeights ops layout factor).items =
      if Repacks layout then
        (ops.filter fun op => Shardable op).filterMap (shardEntry factor) else [] := by
  unfold shardConvWeights
  simp only
  have hid : ∀ op did spec, shardEntry factor op = some (did, spec) → op.dispatchId = some did :=
    fun _ _ _ h => (shardEntry_eq_some_iff.mp h).1
  have hentries := nodup_entries hnd hid Shardable
  by_cases hlayout : Repacks layout
  · rw [if_pos hlayout]
    split_ifs with hnone
    · -- No op asks for more than one shard.
      have hsingle := hnone.resolve_right fun h => h hlayout
      symm
      apply filterMap_eq_nil_iff.mpr
      intro op hop
      cases hentry : shardEntry factor op with
      | none => rfl
      | some entry =>
        have hmany := (shardEntry_eq_some_iff.mp hentry).2.2.1
        exact absurd (hsingle op hop) (Nat.not_le.mpr hmany)
    · exact items_ofList hentries
  · rw [if_neg hlayout, if_pos (.inr hlayout)]
    rfl

/-! ### Arrays of slices -/

section
variable {ops : List GraphOp} {weights : PyDict String (NdArray ℤ)} {origin : GraphOp → ℕ}
  {layout : Option WeightLayout} {factor : ℕ}

/-- The arrays that are written for a tile. -/
def tileSlices (weights : PyDict String (NdArray ℤ)) (op : GraphOp) :
    List (String × NdArray ℤ) :=
  (tileEntry op).elim [] fun entry => (tileWrites weights entry.2).toOption.getD []

/-- The arrays that are written for the shards of an op. -/
def shardSlices (weights : PyDict String (NdArray ℤ)) (factor : ℕ) (op : GraphOp) :
    List (String × NdArray ℤ) :=
  (shardEntry factor op).elim [] fun entry => (shardWrites weights entry.2).toOption.getD []

variable {key : String} {full : NdArray ℤ} {total ic kh kw : ℕ}

/-- The array of a conv weight. -/
theorem convArray_eq_some (hget : weights.get? key = some full)
    (hshape : full.shape = [total, ic, kh, kw]) :
    convArray weights key = some full := by
  rw [convArray, hget]
  simp [Option.filter, hshape]

variable {op conv : GraphOp} {n : ℕ}

section
variable (hreads : ConvReads weights n op conv key total ic kh kw)
include hreads

/-- What is written for a tile: its weights, and then a bias, if it has one. -/
theorem tileWrites_eq_ok {entry : ℤ × TileSpec} (htile : IsConvTile op)
    (hget : weights.get? key = some full) (hshape : full.shape = [total, ic, kh, kw])
    (hentry : tileEntry op = some entry) :
    tileWrites weights entry.2 = .ok ((tileKey key (tileNumber op),
      full.slice (tileNumber op * convOutputChannels op)
        ((tileNumber op + 1) * convOutputChannels op)) ::
        (tileBias weights entry.2).toList.map fun b => (tileKey b.1 (tileNumber op),
          b.2.slice (tileNumber op * convOutputChannels op)
            ((tileNumber op + 1) * convOutputChannels op))) := by
  obtain ⟨did, hdid⟩ := Option.ne_none_iff_exists'.mp hreads.dispatched
  obtain ⟨m, hentry'⟩ := tileEntry_eq_some htile.1 hdid hreads.weightOf
  obtain rfl : entry = _ := Option.some_inj.mp (hentry.symm.trans hentry')
  have hwidth := calledChannels_of_sliceable htile.2 hreads.shapeOf
  have hpos := hreads.channels_pos
  obtain ⟨-, -, -, -, -, hle⟩ := hreads.tile htile.1
  rw [hwidth] at hpos hle
  -- The tile is within the weight.
  have hok : ¬(convOutputChannels op = 0 ∨
      full.shape.headD 0 < (tileNumber op + 1) * convOutputChannels op) := by
    rw [hshape, headD_cons]
    omega
  simp only [tileWrites, convArray_eq_some hget hshape, if_neg hok]

/-- What is written for a sharded op. -/
theorem shardWrites_eq_ok {entry : ℤ × ShardSpec} (hshardable : Shardable op)
    (hget : weights.get? key = some full) (hshape : full.shape = [total, ic, kh, kw])
    (hentry : shardEntry factor op = some entry) :
    shardWrites weights entry.2 = .ok ((List.range (factorFor factor op)).map fun t =>
      (shardKey key t, full.slice (t * (convOutputChannels op / factorFor factor op))
        ((t + 1) * (convOutputChannels op / factorFor factor op)))) := by
  obtain ⟨did, spec⟩ := entry
  obtain ⟨-, hkey, hmany, hpos, hdvd, hn, hper⟩ := shardEntry_eq_some_iff.mp hentry
  obtain rfl : key = spec.weight := Option.some_inj.mp (hreads.weightOf.symm.trans hkey)
  have hwhole : ¬op.IsOcTile := by
    rw [GraphOp.IsOcTile, hshardable.2.2]
    simp
  have htotal : convOutputChannels op = total := by
    rw [← calledChannels_of_sliceable hshardable.1 hreads.shapeOf]
    exact (hreads.whole hwhole).2
  -- The shards make up the weight.
  have hok : ¬(spec.ocPer = 0 ∨ spec.ocPer * spec.nShards ≠ full.shape.headD 0) := by
    rw [hshape, headD_cons, hn, hper, Nat.div_mul_cancel hdvd, htotal]
    have := Nat.div_pos (Nat.le_of_dvd hpos hdvd) (by omega : 0 < factorFor factor op)
    rw [htotal] at this
    omega
  simp only [shardWrites, convArray_eq_some hget hshape, if_neg hok]
  rw [hn, hper]

end

/-- The arrays of the slices, under their keys. -/
def sliceArrays (ops : List GraphOp) (weights : PyDict String (NdArray ℤ))
    (layout : Option WeightLayout) (factor : ℕ) : PyDict String (NdArray ℤ) :=
  if Repacks layout then
    PyDict.ofList (((ops.filter fun op => IsConvTile op).flatMap fun op => tileSlices weights op) ++
      (ops.filter fun op => Shardable op).flatMap fun op => shardSlices weights factor op)
  else PyDict.empty

/-- An array as it is written. -/
def storedArray (layout : Option WeightLayout) (key : String) (a : NdArray ℤ) : NdArray ℤ :=
  if isConstKey key then a else backendPackWeight layout a

/-- Traversing the entries of a plan is going through the ops. -/
private theorem flatten_mapM_entries {σ β : Type} (entry : GraphOp → Option (ℤ × σ))
    (f : σ → Except WeightPlanError (List β)) (l : List GraphOp)
    (hok : ∀ op ∈ l, ∀ e, entry op = some e → ∃ r, f e.2 = .ok r) :
    (l.filterMap entry).mapM (fun item => f item.2) =
        .ok ((l.filterMap entry).map fun item => (f item.2).toOption.getD []) ∧
      ((l.filterMap entry).map fun item => (f item.2).toOption.getD []).flatten =
        l.flatMap fun op => (entry op).elim [] fun e => (f e.2).toOption.getD [] := by
  constructor
  · apply Fallible.mapM_eq_ok_map
    intro item hitem
    obtain ⟨op, hop, hentry⟩ := mem_filterMap.mp hitem
    obtain ⟨r, hr⟩ := hok op hop item hentry
    rw [hr]
    rfl
  · induction l with
    | nil => rfl
    | cons op rest ih =>
      have hrest := ih fun x hx => hok x (mem_cons_of_mem op hx)
      rw [flatMap_cons, ← hrest]
      cases hentry : entry op with
      | none => rw [filterMap_cons_none hentry]; rfl
      | some e => rw [filterMap_cons_some hentry]; rfl

/-- The arrays that are written: those that are kept, and those of the slices. -/
theorem emitWeights_eq_ok (h : WeightInputs ops weights origin) :
    emitWeights ops weights layout factor =
      .ok ((if (sliceArrays ops weights layout factor).items = [] then weights
        else PyDict.ofList ((weights.items.filter fun item =>
            item.1 ∉ droppedKeys weights (splitConvTileWeights ops layout)
              (shardConvWeights ops layout factor) ∨
            some item.1 ∈ stillUsed ops (shardConvWeights ops layout factor)) ++
          (sliceArrays ops weights layout factor).items)).mapItems (storedArray layout)) := by
  unfold emitWeights
  simp only
  rw [items_splitConvTileWeights h.nodup, items_shardConvWeights h.nodup]
  by_cases hlayout : Repacks layout
  · have htiles := flatten_mapM_entries tileEntry (tileWrites weights)
      (ops.filter fun op => IsConvTile op) fun op hop entry hentry => by
        obtain ⟨hmem, htile⟩ := mem_filter.mp hop
        obtain ⟨conv, hconv⟩ := h.called op hmem (of_decide_eq_true htile).2
        obtain ⟨key, total, ic, kh, kw, hreads⟩ := h.reads op hmem conv hconv
        obtain ⟨full, hget, hshape⟩ := hreads.filters
        exact ⟨_, tileWrites_eq_ok hreads (of_decide_eq_true htile) hget hshape hentry⟩
    have hshards := flatten_mapM_entries (shardEntry factor) (shardWrites weights)
      (ops.filter fun op => Shardable op) fun op hop entry hentry => by
        obtain ⟨hmem, hshardable⟩ := mem_filter.mp hop
        obtain ⟨conv, hconv⟩ := h.called op hmem (of_decide_eq_true hshardable).1
        obtain ⟨key, total, ic, kh, kw, hreads⟩ := h.reads op hmem conv hconv
        obtain ⟨full, hget, hshape⟩ := hreads.filters
        exact ⟨_, shardWrites_eq_ok hreads (of_decide_eq_true hshardable) hget hshape hentry⟩
    rw [if_pos hlayout, if_pos hlayout, htiles.1, hshards.1]
    simp only [bind, Except.bind]
    rw [htiles.2, hshards.2, sliceArrays, if_pos hlayout]
    rfl
  · rw [if_neg hlayout, if_neg hlayout, sliceArrays, if_neg hlayout]
    rfl

/-- The weights are written. Under the key of a slice stands the slice. Under another key stands
the weight, if an op reads it in full. -/
structure WritesWeights (ops : List GraphOp) (weights : PyDict String (NdArray ℤ))
    (layout : Option WeightLayout) (factor : ℕ) (emitted : PyDict String (NdArray ℤ)) : Prop where
  slices : ∀ key a, (sliceArrays ops weights layout factor).get? key = some a →
    emitted.get? key = some (storedArray layout key a)
  full : ∀ key a, key ∉ (sliceArrays ops weights layout factor).keys →
    (Repacks layout → some key ∈ stillUsed ops (shardConvWeights ops layout factor)) →
    weights.get? key = some a → emitted.get? key = some (storedArray layout key a)

/-- The weights are written. -/
theorem exists_emitWeights_eq_ok (h : WeightInputs ops weights origin) :
    ∃ emitted, emitWeights ops weights layout factor = .ok emitted ∧
      WritesWeights ops weights layout factor emitted := by
  refine ⟨_, emitWeights_eq_ok h, ?_, ?_⟩
  · intro key a hget
    have hmem := mem_items_iff.mpr hget
    have hsome : ¬(sliceArrays ops weights layout factor).items = [] := ne_nil_of_mem hmem
    rw [get?_mapItems, if_neg hsome, get?_ofList_append, get?_ofList_items, hget]
    rfl
  · intro key a hnot hused hget
    rw [get?_mapItems]
    split_ifs with hnone
    · rw [hget]
      rfl
    · have hlayout : Repacks layout := by
        by_contra hlayout
        rw [sliceArrays, if_neg hlayout] at hnone
        exact hnone rfl
      -- The array is kept, as it is still used.
      have hkept : (PyDict.ofList (weights.items.filter fun item =>
          item.1 ∉ droppedKeys weights (splitConvTileWeights ops layout)
            (shardConvWeights ops layout factor) ∨
          some item.1 ∈ stillUsed ops (shardConvWeights ops layout factor))).get? key = some a := by
        refine (get?_ofList_iff ?_).mpr (mem_filter.mpr ⟨mem_items_iff.mpr hget, ?_⟩)
        · exact weights.nodup.sublist (filter_sublist.map _)
        · exact decide_eq_true (.inr (hused hlayout))
      rw [get?_ofList_append, get?_ofList_items, get?_eq_none_iff.mpr hnot, Option.none_or, hkept]
      rfl

/-! ### Reading the slices -/

section
variable (hreads : ConvReads weights n op conv key total ic kh kw)
include hreads

/-- The arrays of a tile: its weights, and then a bias, if it has one. -/
theorem tileSlices_eq (htile : IsConvTile op) (hget : weights.get? key = some full)
    (hshape : full.shape = [total, ic, kh, kw]) :
    ∃ biases, tileSlices weights op = (tileKey key (tileNumber op),
        full.slice (tileNumber op * convOutputChannels op)
          ((tileNumber op + 1) * convOutputChannels op)) :: biases ∧
      ∀ p ∈ biases, ∃ base, convBiasOf op = some base ∧ p.1 = tileKey base (tileNumber op) := by
  obtain ⟨did, hdid⟩ := Option.ne_none_iff_exists'.mp hreads.dispatched
  obtain ⟨m, hentry⟩ := tileEntry_eq_some htile.1 hdid hreads.weightOf
  have hslices : tileSlices weights op = (tileWrites weights ⟨key, convBiasOf op, tileNumber op, m,
      convOutputChannels op⟩).toOption.getD [] := by
    rw [tileSlices, hentry]
    rfl
  rw [tileWrites_eq_ok hreads htile hget hshape hentry] at hslices
  refine ⟨_, hslices, ?_⟩
  intro p hp
  obtain ⟨b, hb, rfl⟩ := mem_map.mp hp
  obtain ⟨base, hbase, hb'⟩ := Option.bind_eq_some_iff.mp (Option.mem_toList.mp hb)
  obtain ⟨arr, -, rfl⟩ := Option.map_eq_some_iff.mp hb'
  exact ⟨base, hbase, rfl⟩

/-- The arrays of the shards of an op. -/
theorem shardSlices_eq (hshardable : Shardable op) (hget : weights.get? key = some full)
    (hshape : full.shape = [total, ic, kh, kw]) :
    shardSlices weights factor op =
      if 1 < factorFor factor op ∧ factorFor factor op ∣ convOutputChannels op then
        (List.range (factorFor factor op)).map fun t =>
          (shardKey key t, full.slice (t * (convOutputChannels op / factorFor factor op))
            ((t + 1) * (convOutputChannels op / factorFor factor op)))
      else [] := by
  obtain ⟨did, hdid⟩ := Option.ne_none_iff_exists'.mp hreads.dispatched
  have hpos : 0 < convOutputChannels op := by
    rw [← calledChannels_of_sliceable hshardable.1 hreads.shapeOf]
    exact hreads.channels_pos
  split_ifs with hsharded
  · have hentry : shardEntry factor op = some (did, ⟨key,
        convOutputChannels op / factorFor factor op, factorFor factor op⟩) :=
      shardEntry_eq_some_iff.mpr ⟨hdid, hreads.weightOf, hsharded.1, hpos, hsharded.2, rfl, rfl⟩
    have hwrites := shardWrites_eq_ok hreads hshardable hget hshape hentry
    rw [shardSlices, hentry]
    show (shardWrites weights _).toOption.getD [] = _
    rw [hwrites]
    rfl
  · rw [shardSlices]
    cases hentry : shardEntry factor op with
    | none => rfl
    | some entry =>
      obtain ⟨-, -, hmany, -, hdvd, -⟩ := shardEntry_eq_some_iff.mp hentry
      exact absurd ⟨hmany, hdvd⟩ hsharded

end

variable {p : String × NdArray ℤ}

/-- The arrays of tiles stand under keys of tiles. -/
theorem mem_tileSlices (h : WeightInputs ops weights origin)
    (hp : p ∈ (ops.filter fun op => IsConvTile op).flatMap fun op => tileSlices weights op) :
    ∃ base t, (∃ b ∈ ops, convWeightOf b = some base ∨ convBiasOf b = some base) ∧
      p.1 = tileKey base t := by
  obtain ⟨op, hop, hp⟩ := mem_flatMap.mp hp
  obtain ⟨hmem, htile⟩ := mem_filter.mp hop
  obtain ⟨conv, hconv⟩ := h.called op hmem (of_decide_eq_true htile).2
  obtain ⟨key, total, ic, kh, kw, hreads⟩ := h.reads op hmem conv hconv
  obtain ⟨full, hget, hshape⟩ := hreads.filters
  obtain ⟨biases, hslices, hbiases⟩ := tileSlices_eq hreads (of_decide_eq_true htile) hget hshape
  rw [hslices] at hp
  rcases mem_cons.mp hp with rfl | hbias
  · exact ⟨key, _, ⟨op, hmem, .inl hreads.weightOf⟩, rfl⟩
  · obtain ⟨base, hbase, hp'⟩ := hbiases p hbias
    exact ⟨base, _, ⟨op, hmem, .inr hbase⟩, hp'⟩

/-- The arrays of shards stand under keys of shards. -/
theorem mem_shardSlices (h : WeightInputs ops weights origin)
    (hp : p ∈ (ops.filter fun op => Shardable op).flatMap fun op => shardSlices weights factor op) :
    ∃ base t, (∃ b ∈ ops, convWeightOf b = some base) ∧ p.1 = shardKey base t := by
  obtain ⟨op, hop, hp⟩ := mem_flatMap.mp hp
  obtain ⟨hmem, hshardable⟩ := mem_filter.mp hop
  obtain ⟨conv, hconv⟩ := h.called op hmem (of_decide_eq_true hshardable).1
  obtain ⟨key, total, ic, kh, kw, hreads⟩ := h.reads op hmem conv hconv
  obtain ⟨full, hget, hshape⟩ := hreads.filters
  rw [shardSlices_eq hreads (of_decide_eq_true hshardable) hget hshape] at hp
  split_ifs at hp
  · obtain ⟨t, -, rfl⟩ := mem_map.mp hp
    exact ⟨key, t, ⟨op, hmem, hreads.weightOf⟩, rfl⟩
  · cases hp

variable {a : GraphOp}

section
variable (h : WeightInputs ops weights origin) (hop : op ∈ ops)
include h hop

/-- The array of a tile with a weight and a number. -/
theorem filter_tileSlices {t : ℕ} (htile : IsConvTile op) (ha : a ∈ ops)
    (hkey : convWeightOf a = some key) (hget : weights.get? key = some full) :
    ((tileSlices weights op).filter fun p => p.1 = tileKey key t) =
      if convWeightOf op = some key ∧ tileNumber op = t then
        [(tileKey key t, full.slice (t * convOutputChannels op) ((t + 1) * convOutputChannels op))]
      else [] := by
  obtain ⟨conv, hconv⟩ := h.called op hop htile.2
  obtain ⟨key', total, ic, kh, kw, hreads⟩ := h.reads op hop conv hconv
  obtain ⟨full', hget', hshape⟩ := hreads.filters
  obtain ⟨biases, hslices, hbiases⟩ := tileSlices_eq hreads htile hget' hshape
  -- The bias of the tile stands under another key.
  have hnone : (biases.filter fun p => p.1 = tileKey key t) = [] := by
    apply filter_eq_nil_iff.mpr
    intro p hp heq
    obtain ⟨base, hbase, hp'⟩ := hbiases p hp
    obtain ⟨rfl, -⟩ := tileKey_inj.mp (hp'.symm.trans (of_decide_eq_true heq))
    exact h.biasApart a ha op hop base hkey hbase
  rw [hslices, filter_cons, hnone]
  simp only [decide_eq_true_eq, tileKey_inj, hreads.weightOf, Option.some_inj]
  by_cases hmatch : key' = key ∧ tileNumber op = t
  · obtain ⟨rfl, rfl⟩ := hmatch
    obtain rfl : full' = full := Option.some_inj.mp (hget'.symm.trans hget)
    rw [if_pos ⟨rfl, rfl⟩]
  · rw [if_neg hmatch, if_neg hmatch]

/-- The array of a shard with a weight and a number. -/
theorem filter_shardSlices {t : ℕ} (hshardable : Shardable op) (hget : weights.get? key = some full)
    :
    ((shardSlices weights factor op).filter fun p => p.1 = shardKey key t) =
      if (1 < factorFor factor op ∧ factorFor factor op ∣ convOutputChannels op) ∧
          convWeightOf op = some key ∧ t < factorFor factor op then
        [(shardKey key t, full.slice (t * (convOutputChannels op / factorFor factor op))
          ((t + 1) * (convOutputChannels op / factorFor factor op)))]
      else [] := by
  obtain ⟨conv, hconv⟩ := h.called op hop hshardable.1
  obtain ⟨key', total, ic, kh, kw, hreads⟩ := h.reads op hop conv hconv
  obtain ⟨full', hget', hshape⟩ := hreads.filters
  rw [shardSlices_eq hreads hshardable hget' hshape]
  by_cases hsharded : 1 < factorFor factor op ∧ factorFor factor op ∣ convOutputChannels op
  · rw [if_pos hsharded, filter_map]
    simp only [Function.comp_def, shardKey_inj, hreads.weightOf, Option.some_inj, hsharded,
      true_and]
    by_cases hmatch : key' = key
    · subst hmatch
      obtain rfl : full' = full := Option.some_inj.mp (hget'.symm.trans hget)
      simp only [true_and, PyList.filter_range_eq]
      split_ifs <;> rfl
    · simp [hmatch]
  · rw [if_neg hsharded, if_neg fun hall => hsharded hall.1]
    rfl

end

/-- Among the ops that the planner looks at, those of a kind. -/
private theorem filter_filter_decide {p q : GraphOp → Prop} [DecidablePred p] [DecidablePred q]
    (l : List GraphOp) :
    ((l.filter fun op => p op).filter fun op => q op) = l.filter fun op => p op ∧ q op := by
  rw [filter_filter]
  apply filter_congr
  intro op _
  rw [Bool.decide_and, Bool.and_comm]

section
variable (h : WeightInputs ops weights origin)
include h

/-- Under the key of a tile stands the slice of the last tile with the weight and the number. -/
theorem get?_sliceArrays_tile (hlayout : Repacks layout) (ha : a ∈ ops)
    (hkey : convWeightOf a = some key) (hget : weights.get? key = some full) (t : ℕ) :
    (sliceArrays ops weights layout factor).get? (tileKey key t) =
      (lastTile ops key t).map fun z =>
        full.slice (t * convOutputChannels z) ((t + 1) * convOutputChannels z) := by
  have htiles : ((ops.filter fun op => IsConvTile op).flatMap fun op =>
      tileSlices weights op).filter (fun p => p.1 = tileKey key t) =
      (ops.filter fun op => IsConvTile op ∧ convWeightOf op = some key ∧ tileNumber op = t).map
        fun z => (tileKey key t,
          full.slice (t * convOutputChannels z) ((t + 1) * convOutputChannels z)) := by
    rw [← filter_filter_decide]
    apply PyList.filter_flatMap_eq_map
    intro op hop
    obtain ⟨hmem, htile⟩ := mem_filter.mp hop
    simpa only [decide_eq_true_eq] using
      filter_tileSlices h hmem (of_decide_eq_true htile) ha hkey hget
  have hshards : ((ops.filter fun op => Shardable op).flatMap fun op =>
      shardSlices weights factor op).filter (fun p => p.1 = tileKey key t) = [] := by
    apply filter_eq_nil_iff.mpr
    intro p hp heq
    obtain ⟨base, u, -, hp'⟩ := mem_shardSlices h hp
    exact tileKey_ne_shardKey key base t u ((of_decide_eq_true heq).symm.trans hp')
  rw [sliceArrays, if_pos hlayout, get?_ofList, filter_append, htiles, hshards,
    append_nil, getLast?_map, Option.map_map, lastTile]
  rfl

/-- Under the key of a shard stands the slice of the last op with the weight and such a shard. -/
theorem get?_sliceArrays_shard (hlayout : Repacks layout) (hget : weights.get? key = some full)
    (t : ℕ) :
    (sliceArrays ops weights layout factor).get? (shardKey key t) =
      (lastShards ops layout factor key t).map fun z =>
        full.slice (t * (convOutputChannels z / factorFor factor z))
          ((t + 1) * (convOutputChannels z / factorFor factor z)) := by
  have hshards : ((ops.filter fun op => Shardable op).flatMap fun op =>
      shardSlices weights factor op).filter (fun p => p.1 = shardKey key t) =
      (ops.filter fun op => IsSharded layout factor op ∧ convWeightOf op = some key ∧
        t < factorFor factor op).map fun z => (shardKey key t,
          full.slice (t * (convOutputChannels z / factorFor factor z))
            ((t + 1) * (convOutputChannels z / factorFor factor z))) := by
    have hsplit : (ops.filter fun op => IsSharded layout factor op ∧ convWeightOf op = some key ∧
        t < factorFor factor op) = (ops.filter fun op => Shardable op).filter fun op =>
          (1 < factorFor factor op ∧ factorFor factor op ∣ convOutputChannels op) ∧
            convWeightOf op = some key ∧ t < factorFor factor op := by
      rw [filter_filter_decide]
      apply filter_congr
      intro op _
      rw [decide_eq_decide, IsSharded, and_iff_right hlayout, and_assoc]
    rw [hsplit]
    apply PyList.filter_flatMap_eq_map
    intro op hop
    obtain ⟨hmem, hshardable⟩ := mem_filter.mp hop
    simpa only [decide_eq_true_eq] using
      filter_shardSlices h hmem (of_decide_eq_true hshardable) hget
  have htiles : ((ops.filter fun op => IsConvTile op).flatMap fun op =>
      tileSlices weights op).filter (fun p => p.1 = shardKey key t) = [] := by
    apply filter_eq_nil_iff.mpr
    intro p hp heq
    obtain ⟨base, u, -, hp'⟩ := mem_tileSlices h hp
    exact tileKey_ne_shardKey base key u t (hp'.symm.trans (of_decide_eq_true heq))
  rw [sliceArrays, if_pos hlayout, get?_ofList, filter_append, htiles, hshards,
    nil_append, getLast?_map, Option.map_map, lastShards]
  rfl

/-- No slice stands under the key of a weight. -/
theorem not_mem_keys_sliceArrays (ha : a ∈ ops) (hkey : convWeightOf a = some key) :
    key ∉ (sliceArrays ops weights layout factor).keys := by
  intro hmem
  by_cases hlayout : Repacks layout
  · rw [sliceArrays, if_pos hlayout, mem_keys_ofList, map_append, mem_append] at hmem
    rcases hmem with htile | hshard
    · obtain ⟨p, hp, rfl⟩ := mem_map.mp htile
      obtain ⟨base, t, ⟨b, hb, hbase⟩, hp'⟩ := mem_tileSlices h hp
      exact (h.fresh a ha b hb _ base hkey hbase t).1 hp'
    · obtain ⟨p, hp, rfl⟩ := mem_map.mp hshard
      obtain ⟨base, t, ⟨b, hb, hbase⟩, hp'⟩ := mem_shardSlices h hp
      exact (h.fresh a ha b hb _ base hkey (.inl hbase) t).2 hp'
  · rw [sliceArrays, if_neg hlayout] at hmem
    cases hmem

end

end

end ModelBlaster

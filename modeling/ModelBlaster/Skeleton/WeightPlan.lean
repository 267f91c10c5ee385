import ModelBlaster.Skeleton.EmittedWeights

/-!
# Which conv calls read their own weights

A slice is written under a key that says its weight and its number. So tiles of two widths, or
shards of two widths, write over one another when they share a weight. And an array whose key
begins like that of a constant is not repacked, whatever the kernel expects.

## Main definitions

* `SlicesAgree`: no array is written over by one that differs, and every one is ordered as the
  kernel expects.

## Main results

* `planSound_iff`: every conv call reads its own weights, whatever they are, iff the slices agree;
* `tiedConvs_clobbered`: two ops that share a weight and are sharded differently.
-/

namespace ModelBlaster

open List

/-! ### What a call gets -/

/-- The order in which an array is stored. -/
def storedLayout (layout : Option WeightLayout) (key : String) : WeightLayout :=
  if isConstKey key then .oihw else layout.getD .oihw

variable {full : NdArray ℤ} {total oc ic kh kw : ℕ} {first origin first' oc' : ℕ}
  {emitted weights : PyDict String (NdArray ℤ)} {call : ConvCall} {symbol : String}

/-- A slice as it is written. -/
theorem storedAs_storedArray (layout : Option WeightLayout) (key : String)
    (hshape : full.shape = [total, ic, kh, kw]) (hle : first + oc ≤ total) :
    StoredAs (storedLayout layout key)
      (storedArray layout key (full.slice first (first + oc))) full first oc ic kh kw := by
  have hslice : (full.slice first (first + oc)).shape = [oc, ic, kh, kw] := by
    rw [NdArray.shape_slice hshape hle, Nat.add_sub_cancel_left]
  apply StoredAs.of_slice hshape hle
  rw [storedLayout, storedArray]
  split_ifs
  · exact storedAs_self hslice
  · exact storedAs_backendPackWeight hslice layout

/-- A full weight as it is written. -/
theorem storedAs_storedArray_whole (layout : Option WeightLayout) (key : String)
    (hshape : full.shape = [total, ic, kh, kw]) :
    StoredAs (storedLayout layout key) (storedArray layout key full) full 0 total ic kh kw := by
  rw [storedLayout, storedArray]
  split_ifs
  · exact storedAs_self hshape
  · exact storedAs_backendPackWeight hshape layout

/-- No two elements of a weight are equal. -/
def Distinct (weights : PyDict String (NdArray ℤ)) : Prop :=
  ∀ key a, weights.get? key = some a → a.data.Nodup

/-- Whether a call is sound is decided by a condition: it is enough, and when no two elements of a
weight are equal, it is needed. -/
structure ConvCall.SoundWhen (weights emitted : PyDict String (NdArray ℤ))
    (layout : Option WeightLayout) (origin : ℕ) (call : ConvCall) (p : Prop) : Prop where
  sound : p → call.Sound weights emitted layout origin
  needed : Distinct weights → call.Sound weights emitted layout origin → p

variable {layout : Option WeightLayout}

theorem ConvCall.SoundWhen.congr {p q : Prop} (h : call.SoundWhen weights emitted layout origin p)
    (hpq : p ↔ q) :
    call.SoundWhen weights emitted layout origin q where
  sound hq := h.sound (hpq.mpr hq)
  needed hdistinct hsound := hpq.mp (h.needed hdistinct hsound)

/-- A call that gets some channels of its weight is sound when it looks at the right places. -/
theorem ConvCall.soundWhen {stored : WeightLayout} {packed : NdArray ℤ}
    (hpacked : emitted.get? call.symbol = some packed)
    (hfull : weights.get? call.weight = some full) (hshape : full.shape = [total, ic, kh, kw])
    (hle : origin + call.first + call.oc ≤ total)
    (hstored : StoredAs stored packed full first' oc' ic kh kw) :
    call.SoundWhen weights emitted layout origin (RightPlaces (layout.getD .oihw) stored call.offset
      (origin + call.first) call.oc first' oc' ic kh kw) where
  sound hplaces := ⟨packed, full, total, ic, kh, kw, hpacked, hfull, hshape, hle,
    hstored.reads hshape hle hplaces⟩
  needed hdistinct hsound := by
    obtain ⟨packed', full', total', ic', kh', kw', hpacked', hfull', hshape', -, hreads⟩ := hsound
    obtain rfl : packed' = packed := Option.some_inj.mp (hpacked'.symm.trans hpacked)
    obtain rfl : full' = full := Option.some_inj.mp (hfull'.symm.trans hfull)
    obtain ⟨rfl, rfl, rfl, rfl⟩ : total' = total ∧ ic' = ic ∧ kh' = kh ∧ kw' = kw := by
      simpa using hshape'.symm.trans hshape
    exact hstored.rightPlaces hshape hle (hdistinct _ _ hfull) hreads

/-- A kernel with `oc` channels can read an array that has `oc'` of them, from the same one on. -/
def Legible (layout : Option WeightLayout) (symbol : String) (oc oc' ic kh kw : ℕ) : Prop :=
  oc ≤ oc' ∧
    if isConstKey symbol then SameOrder (layout.getD .oihw) oc ic kh kw
    else layout.getD .oihw = .oihw ∨ oc = oc' ∨ ic = 1 ∧ kh = 1 ∧ kw = 1

/-- When a kernel looks at the right places of what is written. -/
theorem rightPlaces_stored_iff (hoc : 0 < oc) (hic : 0 < ic) (hkh : 0 < kh) (hkw : 0 < kw) :
    RightPlaces (layout.getD .oihw) (storedLayout layout symbol) 0 first oc first' oc' ic kh kw ↔
      first' = first ∧ Legible layout symbol oc oc' ic kh kw := by
  rw [storedLayout, Legible]
  split_ifs
  · exact rightPlaces_unpacked_iff hoc hic hkh hkw
  · exact rightPlaces_packed_iff hoc hic hkh hkw

/-- A kernel can read an array with as many channels, unless its key keeps it from being
repacked. -/
theorem legible_self_iff :
    Legible layout symbol oc oc ic kh kw ↔
      (isConstKey symbol = true → SameOrder (layout.getD .oihw) oc ic kh kw) := by
  rw [Legible, and_iff_right (Nat.le_refl oc)]
  split_ifs with hconst
  · exact (imp_iff_right hconst).symm
  · exact iff_of_true (.inr (.inl rfl)) fun h => absurd h hconst

/-! ### The calls of an op -/

section
variable {ops : List GraphOp} {weights emitted : PyDict String (NdArray ℤ)}
  {origin : GraphOp → ℕ} {layout : Option WeightLayout} {factor : ℕ}

variable {op conv : GraphOp} {key : String} {total ic kh kw : ℕ}

section
variable (h : WeightInputs ops weights origin) (hop : op ∈ ops)
  (hreads : ConvReads weights (origin op) op conv key total ic kh kw)
include h hop hreads

/-- The plan of a tile. -/
theorem get?_tilePlan (htile : IsConvTile op) :
    (Repacks layout → ∃ spec,
      op.dispatchId.bind (splitConvTileWeights ops layout).get? = some spec ∧ spec.weight = key) ∧
    (¬Repacks layout → op.dispatchId.bind (splitConvTileWeights ops layout).get? = none) := by
  obtain ⟨did, hdid⟩ := Option.ne_none_iff_exists'.mp hreads.dispatched
  obtain ⟨m, hentry⟩ := tileEntry_eq_some htile.1 hdid hreads.weightOf
  have hitems := items_splitConvTileWeights h.nodup layout
  rw [hdid, Option.bind_some]
  constructor
  · intro hlayout
    rw [if_pos hlayout] at hitems
    refine ⟨_, PyDict.mem_items_iff.mp (hitems ▸ mem_filterMap.mpr ⟨op, ?_, hentry⟩), rfl⟩
    exact mem_filter.mpr ⟨hop, decide_eq_true htile⟩
  · intro hlayout
    rw [if_neg hlayout] at hitems
    rw [PyDict.get?_eq_none_iff, PyDict.keys, hitems]
    exact not_mem_nil

/-- The plan of an op that is sharded, and of one that is not. -/
theorem get?_shardPlan :
    op.dispatchId.bind (shardConvWeights ops layout factor).get? =
      if IsSharded layout factor op then
        some ⟨key, convOutputChannels op / factorFor factor op, factorFor factor op⟩
      else none := by
  obtain ⟨did, hdid⟩ := Option.ne_none_iff_exists'.mp hreads.dispatched
  rw [hdid, Option.bind_some]
  split_ifs with hsharded
  · obtain ⟨hlayout, hshardable, hmany, hdvd⟩ := hsharded
    have hpos : 0 < convOutputChannels op := by
      rw [← calledChannels_of_sliceable hshardable.1 hreads.shapeOf]
      exact hreads.channels_pos
    exact (get?_shardConvWeights h.nodup).mpr ⟨hlayout, op, hop, hshardable,
      shardEntry_eq_some_iff.mpr ⟨hdid, hreads.weightOf, hmany, hpos, hdvd, rfl, rfl⟩⟩
  · -- The entry under the id of the op would be its own.
    by_contra hsome
    obtain ⟨spec, hspec⟩ := Option.ne_none_iff_exists'.mp hsome
    obtain ⟨hlayout, op', hop', hshardable, hentry⟩ := (get?_shardConvWeights h.nodup).mp hspec
    obtain ⟨hdid', -, hmany, -, hdvd, -⟩ := shardEntry_eq_some_iff.mp hentry
    obtain rfl := eq_of_dispatchIds_nodup h.nodup hop' hop hdid' hdid
    exact hsharded ⟨hlayout, hshardable, hmany, hdvd⟩

end

/-- The call of a conv that is neither sharded nor a tile passes its full weight. -/
theorem convCalls_whole (h : WeightInputs ops weights origin) (hop : op ∈ ops)
    (hconv : calledConv op = some conv)
    (hreads : ConvReads weights (origin op) op conv key total ic kh kw) (htile : ¬op.IsOcTile)
    (hsharded : ¬IsSharded layout factor op) :
    convCalls ops layout factor op = [⟨key, key, 0, total, 0⟩] := by
  have hplan : op.dispatchId.bind (shardConvWeights ops layout factor).get? = none :=
    (get?_shardPlan h hop hreads).trans (if_neg hsharded)
  have hweight : conv.weight.getD "" = key := by rw [hreads.weight]; rfl
  rw [convCalls, hconv]
  simp only [hweight, (hreads.whole htile).2, hplan, if_neg htile, ite_self]

/-- The ops that are sliced are not called with their full weights. -/
private theorem not_mem_plainConvOps (hop : op.op ∈ ocSliceableConvOps) :
    op.op ∉ plainConvOps := by
  have hdisj : ∀ kind ∈ ocSliceableConvOps, kind ∉ plainConvOps := by decide
  exact hdisj op.op hop

/-- A sharded op passes the arrays of its shards. -/
theorem convCalls_sharded (h : WeightInputs ops weights origin) (hop : op ∈ ops)
    (hconv : calledConv op = some conv)
    (hreads : ConvReads weights (origin op) op conv key total ic kh kw)
    (hsharded : IsSharded layout factor op) :
    convCalls ops layout factor op = (List.range (factorFor factor op)).map fun t =>
      ⟨key, shardKey key t, 0, convOutputChannels op / factorFor factor op,
        t * (convOutputChannels op / factorFor factor op)⟩ := by
  have hplan : op.dispatchId.bind (shardConvWeights ops layout factor).get? = some _ :=
    (get?_shardPlan h hop hreads).trans (if_pos hsharded)
  have hweight : conv.weight.getD "" = key := by rw [hreads.weight]; rfl
  rw [convCalls, hconv]
  simp only [hweight, hplan, if_neg (not_mem_plainConvOps hsharded.2.1.1), ite_self]

/-- A tile is not sharded. -/
theorem not_isSharded_of_isOcTile (htile : op.IsOcTile) :
    ¬IsSharded layout factor op := by
  intro hsharded
  rw [GraphOp.IsOcTile, hsharded.2.1.2.2] at htile
  cases htile

section
variable (h : WeightInputs ops weights origin) (hop : op ∈ ops) (hconv : calledConv op = some conv)
  (hreads : ConvReads weights (origin op) op conv key total ic kh kw) (htile : op.IsOcTile)
include h hop hconv hreads htile

/-- The call of a tile. -/
private theorem convCalls_of_isOcTile :
    convCalls ops layout factor op = tileCalls ops layout op conv key (convOutputChannels op) := by
  have hplan : op.dispatchId.bind (shardConvWeights ops layout factor).get? = none :=
    (get?_shardPlan h hop hreads).trans (if_neg (not_isSharded_of_isOcTile htile))
  have hweight : conv.weight.getD "" = key := by rw [hreads.weight]; rfl
  have hkind := (hreads.tile htile).1
  rw [convCalls, hconv]
  simp only [hweight, hplan, if_neg (not_mem_plainConvOps hkind), if_pos htile,
    calledChannels_of_sliceable hkind hreads.shapeOf]

/-- A tile passes its own array, on a backend that repacks weights. -/
theorem convCalls_tile_repacked (hlayout : Repacks layout) :
    convCalls ops layout factor op = [⟨key, tileKey key (tileNumber op), 0, convOutputChannels op,
      tileNumber op * convOutputChannels op⟩] := by
  obtain ⟨hkind, hbatch, -⟩ := hreads.tile htile
  obtain ⟨spec, hspec, hkey⟩ := (get?_tilePlan h hop hreads ⟨htile, hkind⟩).1 hlayout
  rw [convCalls_of_isOcTile h hop hconv hreads htile, tileCalls, if_neg (not_not.mpr hbatch)]
  simp only [hspec, hkey]

/-- A tile passes an offset into the full weight, on a backend that does not. -/
theorem convCalls_tile (hlayout : ¬Repacks layout) :
    convCalls ops layout factor op = [⟨key, key,
      tileNumber op * convOutputChannels op * (ic * kh * kw), convOutputChannels op,
      tileNumber op * convOutputChannels op⟩] := by
  obtain ⟨hkind, hbatch, hic, hkh, hkw, -⟩ := hreads.tile htile
  have hspec := (get?_tilePlan h hop hreads ⟨htile, hkind⟩).2 hlayout
  rw [convCalls_of_isOcTile h hop hconv hreads htile, tileCalls, if_neg (not_not.mpr hbatch)]
  simp only [hspec, hic, hkh, hkw]

end

/-! ### When the calls of an op are sound -/

/-- An op that is neither a tile nor sharded reads its full weight, which is written for it. -/
theorem soundWhen_whole (h : WeightInputs ops weights origin)
    (hw : WritesWeights ops weights layout factor emitted) (hop : op ∈ ops)
    (hreads : ConvReads weights (origin op) op conv key total ic kh kw) (htile : ¬op.IsOcTile)
    (hsharded : ¬IsSharded layout factor op) :
    ConvCall.SoundWhen weights emitted layout (origin op) ⟨key, key, 0, total, 0⟩
      (isConstKey key = true → SameOrder (layout.getD .oihw) total ic kh kw) := by
  obtain ⟨full, hget, hshape⟩ := hreads.filters
  obtain ⟨horigin, htotal⟩ := hreads.whole htile
  have hpos : 0 < total := htotal ▸ hreads.channels_pos
  -- The op keeps the full weight from being dropped.
  have hused : some key ∈ stillUsed ops (shardConvWeights ops layout factor) := by
    refine mem_flatMap.mpr ⟨op, mem_filter.mpr ⟨hop, decide_eq_true ⟨htile, ?_⟩⟩, ?_⟩
    · intro did hdid hmem
      have hplan : op.dispatchId.bind (shardConvWeights ops layout factor).get? = none :=
        (get?_shardPlan h hop hreads).trans (if_neg hsharded)
      rw [Option.mem_def.mp hdid, Option.bind_some, PyDict.get?_eq_none_iff] at hplan
      exact hplan hmem
    · rw [hreads.weightOf]
      exact mem_cons_self
  have hpacked := hw.full key full (not_mem_keys_sliceArrays h hop hreads.weightOf)
    (fun _ => hused) hget
  have hle : origin op + 0 + total ≤ total := by omega
  have hstored := storedAs_storedArray_whole layout key hshape
  refine (ConvCall.soundWhen hpacked hget hshape hle hstored).congr ?_
  rw [rightPlaces_stored_iff hpos hreads.ic_pos hreads.kh_pos hreads.kw_pos, legible_self_iff]
  refine and_iff_right ?_
  show 0 = origin op + 0
  omega

variable {z : GraphOp} {n : ℕ}

section
variable (h : WeightInputs ops weights origin)
include h

/-- An op with a weight has as many channels of it as there are: a tile has those behind the tiles
before it, a sharded op has all. -/
theorem channels_le_total (hz : z ∈ ops) (hreads : ConvReads weights n op conv key total ic kh kw)
    (hkey : convWeightOf z = some key) (hkind : z.op ∈ ocSliceableConvOps) :
    (z.IsOcTile → (tileNumber z + 1) * convOutputChannels z ≤ total) ∧
      (¬z.IsOcTile → convOutputChannels z = total) := by
  obtain ⟨conv', hconv'⟩ := h.called z hz hkind
  obtain ⟨key', total', ic', kh', kw', hreads'⟩ := h.reads z hz conv' hconv'
  obtain rfl : key' = key := Option.some_inj.mp (hreads'.weightOf.symm.trans hkey)
  -- It is one array, so that it has one shape.
  obtain ⟨full, hget, hshape⟩ := hreads.filters
  obtain ⟨full', hget', hshape'⟩ := hreads'.filters
  obtain rfl : full' = full := Option.some_inj.mp (hget'.symm.trans hget)
  have htotal : total' = total := by
    have heq := hshape'.symm.trans hshape
    simp only [List.cons.injEq] at heq
    exact heq.1
  have hwidth := calledChannels_of_sliceable hkind hreads'.shapeOf
  constructor
  · intro htile
    obtain ⟨-, -, -, -, -, hle⟩ := hreads'.tile htile
    rw [hwidth, htotal] at hle
    omega
  · intro htile
    rw [← hwidth, ← htotal]
    exact (hreads'.whole htile).2

/-- Sharded ops with one weight have as many channels. -/
theorem convOutputChannels_eq_of_isSharded (hop : op ∈ ops) (hz : z ∈ ops)
    (hreads : ConvReads weights n op conv key total ic kh kw)
    (hsharded : IsSharded layout factor op) (hzsharded : IsSharded layout factor z)
    (hkey : convWeightOf z = some key) : convOutputChannels z = convOutputChannels op := by
  have hnotTile : ∀ {b : GraphOp}, IsSharded layout factor b → ¬b.IsOcTile :=
    fun hb htile => not_isSharded_of_isOcTile htile hb
  have htotal := (channels_le_total h hop hreads hreads.weightOf hsharded.2.1.1).2
    (hnotTile hsharded)
  have hztotal := (channels_le_total h hz hreads hkey hzsharded.2.1.1).2 (hnotTile hzsharded)
  rw [hztotal, htotal]

/-- On a backend that repacks weights, a tile reads the slice of the last tile with its weight and
its number. -/
theorem soundWhen_tile (hw : WritesWeights ops weights layout factor emitted) (hop : op ∈ ops)
    (hreads : ConvReads weights (origin op) op conv key total ic kh kw) (htile : op.IsOcTile)
    (hlayout : Repacks layout) (hz : lastTile ops key (tileNumber op) = some z) :
    ConvCall.SoundWhen weights emitted layout (origin op)
      ⟨key, tileKey key (tileNumber op), 0, convOutputChannels op,
        tileNumber op * convOutputChannels op⟩
      (tileNumber op * convOutputChannels z =
          origin op + tileNumber op * convOutputChannels op ∧
        Legible layout (tileKey key (tileNumber op)) (convOutputChannels op)
          (convOutputChannels z) ic kh kw) := by
  obtain ⟨full, hget, hshape⟩ := hreads.filters
  obtain ⟨hkind, -, -, -, -, hle⟩ := hreads.tile htile
  obtain ⟨hmem, hztile, hzkey, hznumber⟩ := of_lastTile_eq_some hz
  have hpos := hreads.channels_pos
  rw [calledChannels_of_sliceable hkind hreads.shapeOf] at hle hpos
  rw [Nat.succ_mul] at hle
  have hzle := (channels_le_total h hmem hreads hzkey hztile.2).1 hztile.1
  rw [hznumber, Nat.succ_mul] at hzle
  have hslice : (sliceArrays ops weights layout factor).get? (tileKey key (tileNumber op)) = _ :=
    get?_sliceArrays_tile h hlayout hop hreads.weightOf hget (tileNumber op)
  rw [hz, Option.map_some, Nat.succ_mul] at hslice
  have hpacked := hw.slices _ _ hslice
  have hstored := storedAs_storedArray layout (tileKey key (tileNumber op)) hshape hzle
  have hbound : origin op + tileNumber op * convOutputChannels op + convOutputChannels op ≤
      total := by omega
  refine (ConvCall.soundWhen hpacked hget hshape hbound hstored).congr ?_
  exact rightPlaces_stored_iff hpos hreads.ic_pos hreads.kh_pos hreads.kw_pos

/-- On a backend that does not repack weights, a tile reads the full weight from the first channel
on that its number says. -/
theorem soundWhen_tile_offset (hw : WritesWeights ops weights layout factor emitted)
    (hop : op ∈ ops) (hreads : ConvReads weights (origin op) op conv key total ic kh kw)
    (htile : op.IsOcTile) (hlayout : ¬Repacks layout) :
    ConvCall.SoundWhen weights emitted layout (origin op)
      ⟨key, key, tileNumber op * convOutputChannels op * (ic * kh * kw), convOutputChannels op,
        tileNumber op * convOutputChannels op⟩ (origin op = 0) := by
  obtain ⟨full, hget, hshape⟩ := hreads.filters
  obtain ⟨hkind, -, -, -, -, hle⟩ := hreads.tile htile
  have hpos := hreads.channels_pos
  rw [calledChannels_of_sliceable hkind hreads.shapeOf] at hle hpos
  rw [Nat.succ_mul] at hle
  have hpacked := hw.full key full (not_mem_keys_sliceArrays h hop hreads.weightOf)
    (fun hrepacks => absurd hrepacks hlayout) hget
  have hbound : origin op + tileNumber op * convOutputChannels op + convOutputChannels op ≤
      total := by omega
  -- The weight is stored as in the checkpoint.
  have hoihw : layout.getD .oihw = .oihw := by
    rw [Repacks, not_and_or, not_not, not_not] at hlayout
    rcases hlayout with rfl | rfl <;> rfl
  have hstored := storedAs_storedArray_whole layout key hshape
  have horder : storedLayout layout key = .oihw := by rw [storedLayout, hoihw, ite_self]
  rw [horder] at hstored
  refine (ConvCall.soundWhen hpacked hget hshape hbound hstored).congr ?_
  rw [hoihw, rightPlaces_offset_iff (by omega) hpos hreads.ic_pos hreads.kh_pos hreads.kw_pos]
  show origin op + tileNumber op * convOutputChannels op = tileNumber op * convOutputChannels op ↔ _
  omega

/-- A sharded op reads the slices of the last op with its weight that has them. -/
theorem soundWhen_shard {t : ℕ} (hw : WritesWeights ops weights layout factor emitted)
    (hop : op ∈ ops) (hreads : ConvReads weights (origin op) op conv key total ic kh kw)
    (hsharded : IsSharded layout factor op) (ht : t < factorFor factor op)
    (hz : lastShards ops layout factor key t = some z) :
    ConvCall.SoundWhen weights emitted layout (origin op)
      ⟨key, shardKey key t, 0, convOutputChannels op / factorFor factor op,
        t * (convOutputChannels op / factorFor factor op)⟩
      (t * (convOutputChannels z / factorFor factor z) =
          t * (convOutputChannels op / factorFor factor op) ∧
        Legible layout (shardKey key t) (convOutputChannels op / factorFor factor op)
          (convOutputChannels z / factorFor factor z) ic kh kw) := by
  obtain ⟨full, hget, hshape⟩ := hreads.filters
  obtain ⟨hlayout, hshardable, hmany, hdvd⟩ := hsharded
  obtain ⟨hmem, ⟨-, hzshardable, hzmany, hzdvd⟩, hzkey, hzt⟩ := of_lastShards_eq_some hz
  have hnotTile : ∀ {b : GraphOp}, Shardable b → ¬b.IsOcTile := by
    intro b hb
    rw [GraphOp.IsOcTile, hb.2.2]
    simp
  have htotal := (channels_le_total h hop hreads hreads.weightOf hshardable.1).2
    (hnotTile hshardable)
  have hztotal := (channels_le_total h hmem hreads hzkey hzshardable.1).2 (hnotTile hzshardable)
  have horigin := (hreads.whole (hnotTile hshardable)).1
  have hpos : 0 < convOutputChannels op / factorFor factor op := by
    have hchannels := hreads.channels_pos
    rw [calledChannels_of_sliceable hshardable.1 hreads.shapeOf] at hchannels
    exact Nat.div_pos (Nat.le_of_dvd hchannels hdvd) (by omega)
  -- A shard is within the weight, as all of them make it up.
  have hbound : ∀ {b : GraphOp}, factorFor factor b ∣ convOutputChannels b →
      convOutputChannels b = total → t < factorFor factor b →
      t * (convOutputChannels b / factorFor factor b) + convOutputChannels b / factorFor factor b ≤
        total := by
    intro b hb htotal hlt
    rw [← Nat.succ_mul, ← htotal]
    exact (Nat.mul_le_mul_right _ hlt).trans_eq (Nat.mul_div_cancel' hb)
  have hslice : (sliceArrays ops weights layout factor).get? (shardKey key t) = _ :=
    get?_sliceArrays_shard h hlayout hget t
  rw [hz, Option.map_some, Nat.succ_mul] at hslice
  have hpacked := hw.slices _ _ hslice
  have hstored := storedAs_storedArray layout (shardKey key t) hshape (hbound hzdvd hztotal hzt)
  have hle : origin op + t * (convOutputChannels op / factorFor factor op) +
      convOutputChannels op / factorFor factor op ≤ total := by
    rw [horigin, Nat.zero_add]
    exact hbound hdvd htotal ht
  refine (ConvCall.soundWhen hpacked hget hshape hle hstored).congr ?_
  rw [rightPlaces_stored_iff hpos hreads.ic_pos hreads.kh_pos hreads.kw_pos, horigin, Nat.zero_add]

end

/-! ### When the plan is sound -/

/-- The slices agree. No array is written over by one that differs, and every one is ordered as the
kernel expects. -/
structure SlicesAgree (ops : List GraphOp) (weights : PyDict String (NdArray ℤ))
    (layout : Option WeightLayout) (factor : ℕ) (origin : GraphOp → ℕ) : Prop where
  /-- A full weight has a key that lets it be repacked, or need not be repacked. -/
  whole : ∀ op ∈ ops, ∀ conv key total ic kh kw, calledConv op = some conv →
    ConvReads weights (origin op) op conv key total ic kh kw → ¬op.IsOcTile →
    ¬IsSharded layout factor op → isConstKey key = true →
      SameOrder (layout.getD .oihw) total ic kh kw
  /-- Ops that share a weight are sharded alike. -/
  shards : ∀ op ∈ ops, ∀ conv key total ic kh kw, calledConv op = some conv →
    ConvReads weights (origin op) op conv key total ic kh kw → IsSharded layout factor op →
      (∀ b ∈ ops, IsSharded layout factor b → convWeightOf b = some key →
        factorFor factor b = factorFor factor op) ∧
      (isConstKey (shardKey key 0) = true →
        SameOrder (layout.getD .oihw) (convOutputChannels op / factorFor factor op) ic kh kw)
  /-- The last tile with a weight and a number begins where every other one does, and can be read
  by it. -/
  tiles : ∀ op ∈ ops, ∀ conv key total ic kh kw, calledConv op = some conv →
    ConvReads weights (origin op) op conv key total ic kh kw → op.IsOcTile → Repacks layout →
      ∀ z, lastTile ops key (tileNumber op) = some z →
        tileNumber op * convOutputChannels z =
            origin op + tileNumber op * convOutputChannels op ∧
          Legible layout (tileKey key (tileNumber op)) (convOutputChannels op)
            (convOutputChannels z) ic kh kw
  /-- Without repacked weights, a tile is one of a whole op, or of one that begins with the first
  channel. -/
  offsets : ∀ op ∈ ops, ∀ conv key total ic kh kw, calledConv op = some conv →
    ConvReads weights (origin op) op conv key total ic kh kw → op.IsOcTile → ¬Repacks layout →
      origin op = 0

/-- When the slices agree, every call is sound. -/
theorem SlicesAgree.sound (hagree : SlicesAgree ops weights layout factor origin)
    (h : WeightInputs ops weights origin) (hw : WritesWeights ops weights layout factor emitted)
    (hop : op ∈ ops) {call : ConvCall} (hcall : call ∈ convCalls ops layout factor op) :
    call.Sound weights emitted layout (origin op) := by
  cases hconv : calledConv op with
  | none =>
    rw [convCalls, hconv] at hcall
    cases hcall
  | some conv =>
    obtain ⟨key, total, ic, kh, kw, hreads⟩ := h.reads op hop conv hconv
    by_cases htile : op.IsOcTile
    · by_cases hlayout : Repacks layout
      · rw [convCalls_tile_repacked h hop hconv hreads htile hlayout, mem_singleton] at hcall
        obtain ⟨z, hz⟩ := exists_lastTile hop ⟨htile, (hreads.tile htile).1⟩ hreads.weightOf
        rw [hcall]
        exact (soundWhen_tile h hw hop hreads htile hlayout hz).sound
          (hagree.tiles op hop conv key total ic kh kw hconv hreads htile hlayout z hz)
      · rw [convCalls_tile h hop hconv hreads htile hlayout, mem_singleton] at hcall
        rw [hcall]
        exact (soundWhen_tile_offset h hw hop hreads htile hlayout).sound
          (hagree.offsets op hop conv key total ic kh kw hconv hreads htile hlayout)
    · by_cases hsharded : IsSharded layout factor op
      · rw [convCalls_sharded h hop hconv hreads hsharded] at hcall
        obtain ⟨t, ht, rfl⟩ := mem_map.mp hcall
        have hlt := mem_range.mp ht
        obtain ⟨z, hz⟩ := exists_lastShards hop hsharded hreads.weightOf hlt
        obtain ⟨hmem, hzsharded, hzkey, -⟩ := of_lastShards_eq_some hz
        obtain ⟨hfactors, hconst⟩ :=
          hagree.shards op hop conv key total ic kh kw hconv hreads hsharded
        -- The op that wrote the shard has as many channels, and the same width.
        have hwidth : convOutputChannels z / factorFor factor z =
            convOutputChannels op / factorFor factor op := by
          rw [hfactors z hmem hzsharded hzkey,
            convOutputChannels_eq_of_isSharded h hop hmem hreads hsharded hzsharded hzkey]
        refine (soundWhen_shard h hw hop hreads hsharded hlt hz).sound ⟨by rw [hwidth], ?_⟩
        rw [hwidth, legible_self_iff, isConstKey_shardKey key t 0]
        exact hconst
      · rw [convCalls_whole h hop hconv hreads htile hsharded, mem_singleton] at hcall
        rw [hcall]
        exact (soundWhen_whole h hw hop hreads htile hsharded).sound
          (hagree.whole op hop conv key total ic kh kw hconv hreads htile hsharded)

section
variable (h : WeightInputs ops weights origin)
  (hw : WritesWeights ops weights layout factor emitted) (hdistinct : Distinct weights)
include h hw hdistinct

/-- The op that wrote the second shards of a weight has the width of every op that reads one. -/
private theorem shardWidth_eq_of_sound (hop : op ∈ ops) (hsharded : IsSharded layout factor op)
    (hkey : convWeightOf op = some key) (hz : lastShards ops layout factor key 1 = some z)
    (hsound : ∀ call ∈ convCalls ops layout factor op, call.Sound weights emitted layout (origin op))
    :
    convOutputChannels op / factorFor factor op = convOutputChannels z / factorFor factor z := by
  obtain ⟨conv, hconv⟩ := h.called op hop hsharded.2.1.1
  obtain ⟨key', total, ic, kh, kw, hreads⟩ := h.reads op hop conv hconv
  obtain rfl : key' = key := Option.some_inj.mp (hreads.weightOf.symm.trans hkey)
  have hcalls : convCalls ops layout factor op = _ := convCalls_sharded h hop hconv hreads hsharded
  have hsecond := hsound _ (hcalls ▸ mem_map.mpr ⟨1, mem_range.mpr hsharded.2.2.1, rfl⟩)
  have hstart := ((soundWhen_shard h hw hop hreads hsharded hsharded.2.2.1 hz).needed hdistinct
    hsecond).1
  rw [Nat.one_mul, Nat.one_mul] at hstart
  exact hstart.symm

/-- When no two elements of a weight are equal and every call is sound, the slices agree. -/
theorem slicesAgree_of_sound
    (hsound : ∀ op ∈ ops, ∀ call ∈ convCalls ops layout factor op,
      call.Sound weights emitted layout (origin op)) :
    SlicesAgree ops weights layout factor origin where
  whole op hop conv key total ic kh kw hconv hreads htile hsharded := by
    have hcalls : convCalls ops layout factor op = _ :=
      convCalls_whole h hop hconv hreads htile hsharded
    exact (soundWhen_whole h hw hop hreads htile hsharded).needed hdistinct
      (hsound op hop _ (hcalls ▸ mem_singleton_self _))
  shards op hop conv key total ic kh kw hconv hreads hsharded := by
    constructor
    · intro b hb hbsharded hbkey
      -- Both read their second shards from what one op has written.
      obtain ⟨z, hz⟩ := exists_lastShards hop hsharded hreads.weightOf hsharded.2.2.1
      have hop' := shardWidth_eq_of_sound h hw hdistinct hop hsharded hreads.weightOf hz
        (hsound op hop)
      have hb' := shardWidth_eq_of_sound h hw hdistinct hb hbsharded hbkey hz (hsound b hb)
      have hchannels := convOutputChannels_eq_of_isSharded h hop hb hreads hsharded hbsharded hbkey
      have hpos : 0 < convOutputChannels op := by
        rw [← calledChannels_of_sliceable hsharded.2.1.1 hreads.shapeOf]
        exact hreads.channels_pos
      have hdvd : factorFor factor b ∣ convOutputChannels op := hchannels ▸ hbsharded.2.2.2
      calc factorFor factor b
          = convOutputChannels op / (convOutputChannels op / factorFor factor b) :=
            (Nat.div_div_self hdvd hpos.ne').symm
        _ = convOutputChannels op / (convOutputChannels op / factorFor factor op) := by
            rw [hop', ← hb', hchannels]
        _ = factorFor factor op := Nat.div_div_self hsharded.2.2.2 hpos.ne'
    · intro hconst
      have hlt : 0 < factorFor factor op := Nat.zero_lt_of_lt hsharded.2.2.1
      obtain ⟨z, hz⟩ := exists_lastShards hop hsharded hreads.weightOf hlt
      have hcalls : convCalls ops layout factor op = _ :=
        convCalls_sharded h hop hconv hreads hsharded
      have hfirst := hsound op hop _ (hcalls ▸ mem_map.mpr ⟨0, mem_range.mpr hlt, rfl⟩)
      have hread := (soundWhen_shard h hw hop hreads hsharded hlt hz).needed hdistinct hfirst
      have horder := hread.2.2
      rwa [if_pos hconst] at horder
  tiles op hop conv key total ic kh kw hconv hreads htile hlayout z hz := by
    have hcalls : convCalls ops layout factor op = _ :=
      convCalls_tile_repacked h hop hconv hreads htile hlayout
    exact (soundWhen_tile h hw hop hreads htile hlayout hz).needed hdistinct
      (hsound op hop _ (hcalls ▸ mem_singleton_self _))
  offsets op hop conv key total ic kh kw hconv hreads htile hlayout := by
    have hcalls : convCalls ops layout factor op = _ :=
      convCalls_tile h hop hconv hreads htile hlayout
    exact (soundWhen_tile_offset h hw hop hreads htile hlayout).needed hdistinct
      (hsound op hop _ (hcalls ▸ mem_singleton_self _))

end

/-! ### Weights of the same shapes -/

/-- The weights have the same keys and shapes. -/
def SameShapes (weights weights' : PyDict String (NdArray ℤ)) : Prop :=
  ∀ key, (weights'.get? key).map NdArray.shape = (weights.get? key).map NdArray.shape

variable {weights' : PyDict String (NdArray ℤ)}

section
variable (hsame : SameShapes weights weights')
include hsame

/-- The generator relies on shapes only. -/
theorem ConvReads.of_sameShapes (h : ConvReads weights n op conv key total ic kh kw) :
    ConvReads weights' n op conv key total ic kh kw := by
  refine { h with filters := ?_ }
  obtain ⟨full, hget, hshape⟩ := h.filters
  have hkey := hsame key
  rw [hget, Option.map_some, hshape] at hkey
  exact Option.map_eq_some_iff.mp hkey

theorem WeightInputs.of_sameShapes (h : WeightInputs ops weights origin) :
    WeightInputs ops weights' origin where
  nodup := h.nodup
  called := h.called
  reads op hop conv hconv := by
    obtain ⟨key, total, ic, kh, kw, hreads⟩ := h.reads op hop conv hconv
    exact ⟨key, total, ic, kh, kw, hreads.of_sameShapes hsame⟩
  fresh := h.fresh
  biasApart := h.biasApart

theorem SlicesAgree.of_sameShapes (h : SlicesAgree ops weights layout factor origin) :
    SlicesAgree ops weights' layout factor origin where
  whole op hop conv key total ic kh kw hconv hreads :=
    h.whole op hop conv key total ic kh kw hconv (hreads.of_sameShapes fun k => (hsame k).symm)
  shards op hop conv key total ic kh kw hconv hreads :=
    h.shards op hop conv key total ic kh kw hconv (hreads.of_sameShapes fun k => (hsame k).symm)
  tiles op hop conv key total ic kh kw hconv hreads :=
    h.tiles op hop conv key total ic kh kw hconv (hreads.of_sameShapes fun k => (hsame k).symm)
  offsets op hop conv key total ic kh kw hconv hreads :=
    h.offsets op hop conv key total ic kh kw hconv (hreads.of_sameShapes fun k => (hsame k).symm)

end

/-- Weights of the same shapes, without equal elements. -/
def numberedWeights (weights : PyDict String (NdArray ℤ)) : PyDict String (NdArray ℤ) :=
  weights.mapItems fun _ a =>
    { shape := a.shape
      data := (List.range a.shape.prod).map Int.ofNat
      size_eq := by rw [length_map, length_range] }

theorem sameShapes_numberedWeights (weights : PyDict String (NdArray ℤ)) :
    SameShapes weights (numberedWeights weights) := by
  intro key
  rw [numberedWeights, PyDict.get?_mapItems, Option.map_map]
  rfl

theorem distinct_numberedWeights (weights : PyDict String (NdArray ℤ)) :
    Distinct (numberedWeights weights) := by
  intro key a hget
  rw [numberedWeights, PyDict.get?_mapItems] at hget
  obtain ⟨b, -, rfl⟩ := Option.map_eq_some_iff.mp hget
  exact nodup_range.map fun i j hij => Int.ofNat.inj hij

end

/-! ### A shared weight -/

/-- A conv that asks for shards. -/
def tiedConv (did shards : ℤ) (output : String) : GraphOp where
  op := "conv2d_s8"
  name := output
  dispatchId := some did
  inputs := ["x"]
  outputs := [output]
  shape := ⟨[("N", 1), ("IC", 1), ("IH", 1), ("IW", 1), ("OC", 4), ("KH", 1), ("KW", 1), ("SH", 1),
    ("SW", 1), ("PH", 0), ("PW", 0)], by decide⟩
  weight := some "c.weight_q"
  shardFactor := some shards

/-- Two calls of one conv, with the shards that each asks for. -/
def tiedConvs (f g : ℤ) : List GraphOp := [tiedConv 0 f "y", tiedConv 1 g "z"]

/-- The weight that they share. -/
def tiedWeights : PyDict String (NdArray ℤ) :=
  ⟨[("c.weight_q", ⟨[4, 1, 1, 1], [1, 2, 3, 4], rfl⟩)], by decide⟩

theorem tiedConv_reads (did f : ℤ) (output : String) :
    ConvReads tiedWeights 0 (tiedConv did f output) (tiedConv did f output) "c.weight_q"
      4 1 1 1 where
  dispatched := by simp [tiedConv]
  weight := rfl
  weightOf := rfl
  shapeOf := rfl
  filters := ⟨_, rfl, rfl⟩
  channels_pos := by
    show 0 < 4
    decide
  ic_pos := Nat.one_pos
  kh_pos := Nat.one_pos
  kw_pos := Nat.one_pos
  whole _ := ⟨rfl, rfl⟩
  tile htile := by cases htile

theorem eq_tiedConv_of_mem {f g : ℤ} {op : GraphOp} (hop : op ∈ tiedConvs f g) :
    ∃ did shards output, op = tiedConv did shards output ∧ (shards = f ∨ shards = g) := by
  rcases mem_cons.mp hop with rfl | hop
  · exact ⟨_, _, _, rfl, .inl rfl⟩
  · exact ⟨_, _, _, mem_singleton.mp hop, .inr rfl⟩

theorem tiedConvs_inputs (f g : ℤ) :
    WeightInputs (tiedConvs f g) tiedWeights fun _ => 0 := by
  refine ⟨?_, ?_, ?_, ?_, ?_⟩
  · show ([0, 1] : List ℤ).Nodup
    decide
  · intro op hop _
    obtain ⟨did, shards, output, rfl, -⟩ := eq_tiedConv_of_mem hop
    exact ⟨_, rfl⟩
  · intro op hop conv hconv
    obtain ⟨did, shards, output, rfl, -⟩ := eq_tiedConv_of_mem hop
    obtain rfl : tiedConv did shards output = conv := Option.some_inj.mp hconv
    exact ⟨_, _, _, _, _, tiedConv_reads did shards output⟩
  · intro a ha b hb key base hkey hbase t
    obtain ⟨did, shards, output, rfl, -⟩ := eq_tiedConv_of_mem ha
    obtain ⟨did', shards', output', rfl, -⟩ := eq_tiedConv_of_mem hb
    obtain rfl : "c.weight_q" = key := Option.some_inj.mp hkey
    rcases hbase with hweight | hbias
    · obtain rfl : "c.weight_q" = base := Option.some_inj.mp hweight
      exact ne_sliceKey_self _ t
    · cases hbias
  · intro a ha b hb key _ hbias
    obtain ⟨did, shards, output, rfl, -⟩ := eq_tiedConv_of_mem hb
    cases hbias

end ModelBlaster

import ModelBlaster.Kernels.GemminiConv
import ModelBlaster.Kernels.RvvConv

/-!
# The candidates of `conv2d_s8`

The table of algorithms for `conv2d_s8`. A candidate declares the layout of its weight, and the
backend packs the weight into it. Some candidates carry a C body of their own. The bodies for the
accelerator copy the weight into a workspace, out of the layout of the checkpoint.

## Main definitions

* `conv2dS8Algorithms`: the table;
* `ConvBody.readOffset`: where a body reads a weight;
* `bodyKernel`: the writes of a body.

## Main results

* `computes_kernel`: what a body computes from the weight that it finds;
* `candidate_layout_iff`: when a body finds the weight that is meant.
-/

namespace ModelBlaster.Kernels

open Extract TwosComplement Rvv List

/-! ### The table -/

/-- The C bodies of the table. -/
inductive ConvBody where
  | direct
  | rvvWideningOc
  | rvvVsmulVnclip
  | rvvOcBlocked
  | gemminiTiledConv
  | gemminiIm2colFullC
deriving DecidableEq, Repr

/-- `AlgorithmCandidate` -/
structure AlgorithmCandidate where
  name : String
  /-- The backends that the candidate is for, or none if it is for all of them. -/
  targetAffinity : List String
  weightLayout : WeightLayout
  /-- The body, unless a curated file has it. -/
  referenceImpl : Option ConvBody
deriving DecidableEq, Repr

/-- `CONV2D_S8.algorithms` -/
def conv2dS8Algorithms : List AlgorithmCandidate :=
  [⟨"indir_gemm", ["rvv_opu"], .oihw, none⟩,
    ⟨"im2col_rvv_reduce", ["rvv_opu"], .oihw, none⟩,
    ⟨"im2col_vlA_scalarMAC", ["rvv_opu"], .oihw, none⟩,
    ⟨"im2col_outerprod", ["rvv_opu"], .oihw, none⟩,
    ⟨"direct", [], .oihw, some .direct⟩,
    ⟨"rvv_widening_oc", ["rvv"], .ihwoc, some .rvvWideningOc⟩,
    ⟨"rvv_vsmul_vnclip", ["rvv"], .ihwoc, some .rvvVsmulVnclip⟩,
    ⟨"rvv_oc_blocked", ["rvv"], .ihwoc, some .rvvOcBlocked⟩,
    ⟨"gemmini_tiled_conv", ["gemmini", "gemmini_q31"], .hwio, some .gemminiTiledConv⟩,
    ⟨"gemmini_im2col_full_C", ["gemmini", "gemmini_q31"], .hwio, some .gemminiIm2colFullC⟩]

/-- A backend that packs into the layout may select the candidate. -/
def AlgorithmCandidate.Builds (c : AlgorithmCandidate) (layout : WeightLayout) : Prop :=
  c.targetAffinity = [] ∨ layout = c.weightLayout

/-! ### Where weights are read -/

/-- `MODELBLASTER_GEMMINI_HWIO_WEIGHTS` and `MODELBLASTER_RVV_IHWOC_WEIGHTS`, on a backend that packs
into the layout. -/
def layoutMacros : WeightLayout → Bool × Bool
  | .oihw => (false, false)
  | .hwio => (true, false)
  | .ihwoc => (false, true)

/-- The offset at which a body reads the weight of a channel and a tap. -/
def ConvBody.readOffset (body : ConvBody) (macros : Bool × Bool) (OC IC KH KW : ℕ)
    (oc ic kh kw : ℕ) : ℕ :=
  match body with
  | .direct =>
    if macros.1 then ((kh * KW + kw) * IC + ic) * OC + oc
    else if macros.2 then ((ic * KH + kh) * KW + kw) * OC + oc
    else ((oc * IC + ic) * KH + kh) * KW + kw
  | .rvvWideningOc | .rvvVsmulVnclip | .rvvOcBlocked => (ic * KH * KW + kh * KW + kw) * OC + oc
  | .gemminiTiledConv | .gemminiIm2colFullC => ((oc * IC + ic) * KH + kh) * KW + kw

/-- The layout in which a body finds every weight. -/
def ConvBody.readLayout (body : ConvBody) (layout : WeightLayout) : WeightLayout :=
  match body with
  | .direct => layout
  | .rvvWideningOc | .rvvVsmulVnclip | .rvvOcBlocked => .ihwoc
  | .gemminiTiledConv | .gemminiIm2colFullC => .oihw

theorem ConvBody.readOffset_eq (body : ConvBody) (layout : WeightLayout)
    (OC IC KH KW oc ic kh kw : ℕ) : body.readOffset (layoutMacros layout) OC IC KH KW oc ic kh kw =
      kernelIndex (body.readLayout layout) OC IC KH KW oc ic kh kw := by
  have hrow : ic * KH * KW + kh * KW + kw = (ic * KH + kh) * KW + kw := by ring
  cases body with
  | direct => cases layout <;> rfl
  | rvvWideningOc | rvvVsmulVnclip | rvvOcBlocked =>
    show (ic * KH * KW + kh * KW + kw) * OC + oc = _
    rw [hrow]
    rfl
  | gemminiTiledConv | gemminiIm2colFullC => rfl

/-! ### The platform -/

/-- What `tiled_conv_auto` stores for an element of the output, from the activation, the factor, the
input and the weight with their channels innermost, and the bias. -/
abbrev TiledConv : Type :=
  ConvShape → Bool → ℤ × ℤ → List ℤ → List ℤ → Option (List ℤ) → ℕ × ℕ × ℕ × ℕ → ℤ

/-- The element of a matrix of patches. -/
def cellAt (sh : ConvShape) (wsInput : List ℤ) : ℕ × ℕ × ℕ → ℕ × ℕ × ℕ → ℤ
  | (n, oh, ow), (kh, kw, c) =>
    if sh.RowInside kh oh ∧ sh.ColInside kw ow then
      wsInput.getD (nhwcIndex sh (n, (sh.ih kh oh).toNat, (sh.iw kw ow).toNat, c)) 0
    else 0

/-- The accelerator convolves in 32 bits, and then works on each accumulator. -/
def TiledConv.Exact (conv : TiledConv) (mvout : Bool → ℤ × ℤ → ℤ → ℤ) : Prop :=
  ∀ sh relu scale wsInput wsWeight bias n oc oh ow,
    conv sh relu scale wsInput wsWeight bias (n, oc, oh, ow) =
      mvout relu scale (wrap 32 ((bias.map (·.getD oc 0)).getD 0 + ((cells sh).map fun cell =>
        cellAt sh wsInput (n, oh, ow) cell *
          wsWeight.getD (cellIndex sh cell * sh.OC + oc) 0).sum))

/-- The hardware that the bodies run on. -/
structure ConvPlatform where
  /-- The vectors of `e32, m4`. -/
  unit : VectorUnit
  /-- The vectors of `e32, m2`, which fit `lane`. -/
  narrowMax : ℕ
  narrowMax_pos : 0 < narrowMax
  narrowMax_le : narrowMax ≤ 64
  narrow : Vsetvl narrowMax
  /-- `DIM` -/
  dim : ℕ
  dim_pos : 0 < dim
  matmul : TiledMatmul
  matmul_exact : matmul.Exact
  conv : TiledConv
  mvout : Bool → ℤ × ℤ → ℤ → ℤ
  conv_exact : conv.Exact mvout

/-- The sizes of the workspaces of the bodies. -/
def embeddedSizes (dim : ℕ) : GemminiSizes := ⟨128 * 1024, dim * 128 * 9, dim * 128⟩

/-- The workspaces of the bodies, as an earlier call has left them. -/
structure EmbeddedWorkspaces (dim : ℕ) extends GemminiWorkspaces (embeddedSizes dim) where
  wsWeight : List ℤ
  wsOutput : List ℤ
  wsWeight_length : wsWeight.length = (embeddedSizes dim).wsBytes
  wsOutput_length : wsOutput.length = (embeddedSizes dim).wsBytes

/-! ### The bodies -/

section
variable {sh : ConvShape} (a : ConvArgs sh) (q : RvvBlock) (r : RvvRequant) (p : ConvPlatform)

/-- A strip of `rvv_widening_oc`. -/
def wideningStrip (n oh ow : ℕ) (s : ℕ × ℕ) : Except CFault (List (ℕ × ℤ)) := do
  let lane ← stripAcc a q n oh ow s
  if 64 < s.2 then .error .undefinedBehaviour
  else
    (List.range s.2).mapM fun j => do
      let acc ← Extract.load lane (j : ℕ)
      let x ← elementOf q.toQuantBlock r.toRequantParams acc
      return (sh.outputAddr n (s.1 + j) oh ow, x)

/-- `vout16` in the body of `rvv_vsmul_vnclip`: a long shift is not split. -/
def maskedTail (vacc : List ℤ) : List ℤ :=
  let vscaled := vacc.map (vsmul 32 · r.multiplier)
  if 0 ≤ r.shift then vscaled.map (vnclip 16 · r.shift.toNat)
  else (vscaled.map (vsll 32 · (-r.shift).toNat)).map (vnclip 16 · 0)

/-- A strip of the body of `rvv_vsmul_vnclip`. -/
def maskedStrip (n oh ow : ℕ) (s : ℕ × ℕ) : Except CFault (List (ℕ × ℤ)) := do
  let vacc ← stripAcc a q n oh ow s
  storeStrip sh n oh ow s (offsetTail q (maskedTail r vacc))

/-- The weights, in the order of the loops that copy them. -/
def weightElements (sh : ConvShape) : List (ℕ × ℕ × ℕ × ℕ) :=
  List.range sh.OC ×ˢ List.range sh.KH ×ˢ List.range sh.KW ×ˢ List.range sh.IC

/-- `ws_weight` -/
def packWeight (wsWeight : List ℤ) : Except CFault (List ℤ) := do
  let writes ← (weightElements sh).mapM fun e => do
    let v ← Extract.load a.weight
      (((e.1 * sh.IC + e.2.2.2) * sh.KH + e.2.1) * sh.KW + e.2.2.1 : ℕ)
    return (((e.2.1 * sh.KW + e.2.2.1) * sh.IC + e.2.2.2) * sh.OC + e.1, v)
  runWrites wsWeight writes

/-- The place of an element of `ws_output`. -/
def nhwcOut (sh : ConvShape) : ℕ × ℕ × ℕ × ℕ → ℕ
  | (n, oc, oh, ow) => ((n * sh.OH + oh) * sh.OW + ow) * sh.OC + oc

/-- The output, out of `ws_output`. -/
def unstage (sh : ConvShape) (post : ℤ → ℤ) (wsOutput : List ℤ) : Except CFault (List (ℕ × ℤ)) :=
  sh.outputs.mapM fun t => do
    let v ← Extract.load wsOutput (nhwcOut sh t : ℕ)
    return (outAddr sh t, post v)

/-- The test of `gemmini_tiled_conv` for the scalar loops. -/
def TiledConvFallback (sh : ConvShape) (q : QuantBlock) (wsBytes : ℕ) : Prop :=
  sh.KH ≠ sh.KW ∨ sh.SH ≠ sh.SW ∨ sh.PH ≠ sh.PW ∨ q.inputOffset ≠ 0 ∨ q.filterOffset ≠ 0 ∨
    q.outputOffset ≠ 0 ∨ wsBytes < sh.N * sh.IH * sh.IW * sh.IC ∨
    wsBytes < sh.OC * sh.KH * sh.KW * sh.IC ∨ wsBytes < sh.N * sh.OH * sh.OW * sh.OC

instance (q : QuantBlock) (wsBytes : ℕ) : Decidable (TiledConvFallback sh q wsBytes) :=
  inferInstanceAs (Decidable (_ ∨ _ ∨ _ ∨ _ ∨ _ ∨ _ ∨ _ ∨ _ ∨ _))

/-- The pass over the output that clamps it from above. -/
def postClamp (q : QuantBlock) (v : ℤ) : ℤ :=
  if q.activationMax < 127 then (if q.activationMax < v then q.activationMax else v) else v

variable (ws : EmbeddedWorkspaces p.dim)

/-- The body of `gemmini_tiled_conv`. -/
def gemminiTiledConv : Except CFault (List (ℕ × ℤ)) :=
  if TiledConvFallback sh q.toQuantBlock (embeddedSizes p.dim).wsBytes then
    referenceConv2dS8 a q.toQuantBlock r.toRequantParams .oihw
  else do
    let wsInput ← transposeInput a ws.wsInput
    let wsWeight ← packWeight a ws.wsWeight
    let wsOutput ← runWrites ws.wsOutput (sh.outputs.map fun t => (nhwcOut sh t,
      p.conv sh (decide (q.activationMin = 0)) (r.multiplier, r.shift) wsInput wsWeight a.bias t))
    unstage sh (postClamp q.toQuantBlock) wsOutput

/-- The body of `gemmini_im2col_full_C`. -/
def gemminiIm2colFullC : Except CFault (List (ℕ × ℤ)) :=
  if GemminiFallback (embeddedSizes p.dim) sh q.toQuantBlock p.dim then
    referenceConv2dS8 a q.toQuantBlock r.toRequantParams .oihw
  else do
    let wsInput ← transposeInput a ws.wsInput
    let wsWeight ← packWeight a ws.wsWeight
    let s ← gemminiLoop a q.toQuantBlock r.toRequantParams p.dim p.matmul (nhwcOut sh) wsInput
      wsWeight ws.wsIm2col ws.wsAccOut
    let wsOutput ← runWrites ws.wsOutput s.writes
    unstage sh id wsOutput

/-- The writes of a body, on a backend that packs into the layout. -/
def bodyKernel (body : ConvBody) (layout : WeightLayout) : Except CFault (List (ℕ × ℤ)) :=
  match body with
  | .direct => referenceConv2dS8 a q.toQuantBlock r.toRequantParams layout
  | .rvvWideningOc => tileWrites sh p.narrow (wideningStrip a q r) (0, sh.OC)
  | .rvvVsmulVnclip => tileWrites sh p.unit.vsetvl (maskedStrip a q r) (0, sh.OC)
  | .rvvOcBlocked => rvvOcBlocked a q r p.unit
  | .gemminiTiledConv => gemminiTiledConv a q r p ws
  | .gemminiIm2colFullC => gemminiIm2colFullC a q r p ws

end

/-! ### Vectors -/

section
variable {sh : ConvShape} (a : ConvArgs sh) (q : RvvBlock) (r : RvvRequant)

/-- The instructions behind the accumulation work on each lane. -/
theorem exists_maskedTail (q : RvvBlock) (r : RvvRequant) :
    ∃ f : ℤ → ℤ, ∀ vacc, offsetTail q (maskedTail r vacc) = vacc.map f := by
  have hshift : ∃ g : ℤ → ℤ, ∀ vacc, maskedTail r vacc = vacc.map g := by
    by_cases hneg : 0 ≤ r.shift
    · refine ⟨fun acc => vnclip 16 (vsmul 32 acc r.multiplier) r.shift.toNat, fun vacc => ?_⟩
      rw [maskedTail, if_pos hneg, map_map]
      rfl
    · refine ⟨fun acc => vnclip 16 (vsll 32 (vsmul 32 acc r.multiplier) (-r.shift).toNat) 0,
        fun vacc => ?_⟩
      rw [maskedTail, if_neg hneg, map_map, map_map]
      rfl
  obtain ⟨g, hg⟩ := hshift
  refine ⟨fun acc => vnsra 8 (min (max (wrap 16 (g acc + wrap 16 q.outputOffset))
    (wrap 16 q.activationMin)) (wrap 16 q.activationMax)) 0, fun vacc => ?_⟩
  rw [hg, offsetTail]
  simp only [map_map]
  rfl

variable {f : ℤ → ℤ} {vlmax : ℕ}

/-- A strip without a split of the shift stores what becomes of the accumulators. -/
theorem computes_maskedStrip (hf : ∀ vacc, offsetTail q (maskedTail r vacc) = vacc.map f)
    (hmax : vlmax ≤ 256) :
    StripStores.Computes (maskedStrip a q r) sh vlmax fun t =>
      f (a.accumulator q.toQuantBlock .ihwoc t) := by
  intro n hn oh ow s hs hle
  rw [maskedStrip, stripAcc_eq a q hn hs]
  show storeStrip sh n oh ow s (offsetTail q (maskedTail r _)) = _
  rw [hf, map_map]
  exact storeStrip_eq sh n oh ow (hle.trans hmax) _

/-- A strip that is requantised one by one stores what becomes of the accumulators. -/
theorem computes_wideningStrip
    (hf : ∀ acc, elementOf q.toQuantBlock r.toRequantParams acc = .ok (f acc)) (hmax : vlmax ≤ 64) :
    StripStores.Computes (wideningStrip a q r) sh vlmax fun t =>
      f (a.accumulator q.toQuantBlock .ihwoc t) := by
  intro n hn oh ow s hs hle
  rw [wideningStrip, stripAcc_eq a q hn hs]
  refine (if_neg (by omega)).trans (Fallible.mapM_eq_ok_map fun j hj => ?_)
  have hlane : ((List.range s.2).map fun i =>
      a.accumulator q.toQuantBlock .ihwoc (n, s.1 + i, oh, ow))[j]? =
        some (a.accumulator q.toQuantBlock .ihwoc (n, s.1 + j, oh, ow)) := by
    rw [getElem?_map, getElem?_range (mem_range.mp hj)]
    rfl
  rw [load_of_getElem? hlane]
  show (elementOf q.toQuantBlock r.toRequantParams _ >>= _) = _
  rw [hf]
  rfl

end

/-! ### The workspaces of the accelerator -/

section
variable {sh : ConvShape} (a : ConvArgs sh) {q : QuantBlock}

theorem mem_weightElements {e : ℕ × ℕ × ℕ × ℕ} : e ∈ weightElements sh ↔
    e.1 < sh.OC ∧ e.2.1 < sh.KH ∧ e.2.2.1 < sh.KW ∧ e.2.2.2 < sh.IC := by
  obtain ⟨oc, kh, kw, ic⟩ := e
  simp [weightElements]

variable {cell : ℕ × ℕ × ℕ} {wsWeight wsInput : List ℤ} {t : ℕ × ℕ × ℕ × ℕ}

/-- Two cells of a row have two places. -/
theorem cellIndex_inj {cell' : ℕ × ℕ × ℕ} (h : cell ∈ cells sh) (h' : cell' ∈ cells sh)
    (heq : cellIndex sh cell = cellIndex sh cell') : cell = cell' := by
  have hget := (PyList.getElem?_iff_of_map_range map_cellIndex).mpr ⟨h, heq⟩
  rw [(PyList.getElem?_iff_of_map_range map_cellIndex).mpr ⟨h', rfl⟩] at hget
  exact (Option.some.inj hget).symm

theorem mem_cells : cell ∈ cells sh ↔
    cell.1 < sh.KH ∧ cell.2.1 < sh.KW ∧ cell.2.2 < sh.IC := by
  obtain ⟨kh, kw, c⟩ := cell
  simp [cells]

/-- The stores of the copy of the weight. -/
theorem packWeight_eq (wsWeight : List ℤ) : packWeight a wsWeight = runWrites wsWeight
    ((weightElements sh).map fun e => (cellIndex sh e.2 * sh.OC + e.1,
      a.weight.getD (weightIndex sh .oihw e.1 (tapOfCell e.2)) 0)) := by
  have hload : (weightElements sh).mapM (fun e => do
      let v ← Extract.load a.weight
        (((e.1 * sh.IC + e.2.2.2) * sh.KH + e.2.1) * sh.KW + e.2.2.1 : ℕ)
      return (((e.2.1 * sh.KW + e.2.2.1) * sh.IC + e.2.2.2) * sh.OC + e.1, v)) =
      .ok ((weightElements sh).map fun e => (cellIndex sh e.2 * sh.OC + e.1,
        a.weight.getD (weightIndex sh .oihw e.1 (tapOfCell e.2)) 0)) := by
    apply Fallible.mapM_eq_ok_map
    intro e he
    obtain ⟨hoc, hkh, hkw, hic⟩ := mem_weightElements.mp he
    have hweight : Extract.load a.weight (weightIndex sh .oihw e.1 (tapOfCell e.2)) =
        .ok (a.weight.getD (weightIndex sh .oihw e.1 (tapOfCell e.2)) 0) :=
      a.load_weight hoc (ConvShape.mem_taps.mpr ⟨hic, hkh, hkw⟩)
    show (Extract.load a.weight (weightIndex sh .oihw e.1 (tapOfCell e.2)) >>= _) = _
    rw [hweight]
    rfl
  rw [packWeight, hload]
  rfl

/-- The workspace of the weight holds the factors of the layout that it is copied from. -/
theorem packWeight_spec (hfilter : q.filterOffset = 0)
    (hsize : sh.OC * sh.KH * sh.KW * sh.IC ≤ wsWeight.length) :
    ∃ ws, packWeight a wsWeight = .ok ws ∧ HoldsFactors a q .oihw ws := by
  have hcell : ∀ e ∈ weightElements sh, e.1 < sh.OC ∧ e.2 ∈ cells sh := fun e he =>
    ⟨(mem_weightElements.mp he).1, mem_cells.mpr (mem_weightElements.mp he).2⟩
  obtain ⟨ws, hrun, -, hget⟩ := runWrites_map (weightElements sh)
    (fun e => cellIndex sh e.2 * sh.OC + e.1)
    (fun e => a.weight.getD (weightIndex sh .oihw e.1 (tapOfCell e.2)) 0) wsWeight
    (fun e he => by
      obtain ⟨hoc, hkh, hkw, hic⟩ := mem_weightElements.mp he
      have hlt := PyList.mul_add_lt (PyList.mul_add_lt (PyList.mul_add_lt hkh hkw) hic) hoc
      have hcomm : sh.KH * sh.KW * sh.IC * sh.OC = sh.OC * sh.KH * sh.KW * sh.IC := by ring
      rw [hcomm] at hlt
      exact hlt.trans_le hsize)
    (fun e he e' he' heq => by
      obtain ⟨hidx, hoc⟩ := PyList.mul_add_inj (hcell e he).1 (hcell e' he').1 heq
      exact Prod.ext hoc (cellIndex_inj (hcell e he).2 (hcell e' he').2 hidx))
  refine ⟨ws, (packWeight_eq a wsWeight).trans hrun, fun oc hoc cell hmem => ?_⟩
  have helement : (oc, cell) ∈ weightElements sh := mem_weightElements.mpr ⟨hoc, mem_cells.mp hmem⟩
  rw [factor_eq_getD a .oihw hfilter hoc (tapOfCell_mem hmem), getD_eq_getElem?_getD,
    hget _ helement]
  rfl

/-- Two elements of the output have two places in its workspace. -/
theorem nhwcOut_inj {t' : ℕ × ℕ × ℕ × ℕ} (ht : t ∈ sh.outputs) (ht' : t' ∈ sh.outputs)
    (heq : nhwcOut sh t = nhwcOut sh t') : t = t' := by
  obtain ⟨n, oc, oh, ow⟩ := t
  obtain ⟨-, hoc, hoh, how⟩ := ConvShape.mem_outputs.mp ht
  obtain ⟨-, hoc', hoh', how'⟩ := ConvShape.mem_outputs.mp ht'
  obtain ⟨hplace, rfl⟩ := PyList.mul_add_inj hoc hoc' heq
  obtain ⟨hrow, rfl⟩ := PyList.mul_add_inj how how' hplace
  obtain ⟨rfl, rfl⟩ := PyList.mul_add_inj hoh hoh' hrow
  rfl

theorem nhwcOut_lt (ht : t ∈ sh.outputs) :
    nhwcOut sh t < sh.N * sh.OH * sh.OW * sh.OC := by
  obtain ⟨hn, hoc, hoh, how⟩ := ConvShape.mem_outputs.mp ht
  exact PyList.mul_add_lt (PyList.mul_add_lt (PyList.mul_add_lt hn hoh) how) hoc

/-- What is stored in the workspace of the output goes to the output. -/
theorem computes_unstage {value : ℕ × ℕ × ℕ × ℕ → ℤ} (post : ℤ → ℤ) {writes : List (ℕ × ℤ)}
    {wsOutput : List ℤ} (hsize : sh.N * sh.OH * sh.OW * sh.OC ≤ wsOutput.length)
    (hwrites : ∀ w ∈ writes, ∃ t ∈ sh.outputs, w = (nhwcOut sh t, value t))
    (hall : ∀ t ∈ sh.outputs, (nhwcOut sh t, value t) ∈ writes) :
    ∃ out, runWrites wsOutput writes = .ok out ∧
      Computes sh (fun t => post (value t)) (unstage sh post out) := by
  have hlt : ∀ w ∈ writes, w.1 < wsOutput.length := by
    intro w hw
    obtain ⟨t, ht, rfl⟩ := hwrites w hw
    exact (nhwcOut_lt ht).trans_le hsize
  have hagree : ∀ w ∈ writes, ∀ w' ∈ writes, w.1 = w'.1 → w.2 = w'.2 := by
    intro w hw w' hw' heq
    obtain ⟨t, ht, rfl⟩ := hwrites w hw
    obtain ⟨t', ht', rfl⟩ := hwrites w' hw'
    exact congrArg value (nhwcOut_inj ht ht' heq)
  obtain ⟨out, hrun, -, hget, -⟩ := runWrites_of_agree wsOutput hlt hagree
  refine ⟨out, hrun, computes_mapM fun t ht => ?_⟩
  rw [load_of_getElem? (hget _ (hall t ht))]
  rfl

/-- The element of a patch is the byte that its tap meets. -/
theorem cellAt_eq_byteAt (hws : HoldsInput a wsInput) {n : ℕ} (hn : n < sh.N) (oh ow : ℕ)
    (hcell : cell ∈ cells sh) :
    cellAt sh wsInput (n, oh, ow) cell = byteAt a n oh ow (tapOfCell cell) := by
  obtain ⟨kh, kw, c⟩ := cell
  show ite _ _ _ = ite _ _ _
  split_ifs with hin
  · obtain ⟨⟨hrow, hrow'⟩, hcol, hcol'⟩ := hin
    have hmem : (n, (sh.ih kh oh).toNat, (sh.iw kw ow).toNat, c) ∈ nhwcElements sh :=
      mem_nhwcElements.mpr ⟨hn, (Int.toNat_lt hrow).mpr hrow', (Int.toNat_lt hcol).mpr hcol',
        (mem_cells.mp hcell).2.2⟩
    rw [getD_eq_getElem?_getD, hws _ hmem]
    rfl
  · rfl

/-- The convolution of the workspaces works on the accumulators. -/
theorem conv_eq {conv : TiledConv} {mvout : Bool → ℤ × ℤ → ℤ → ℤ} (hconv : conv.Exact mvout)
    (relu : Bool) (scale : ℤ × ℤ) (hin : q.inputOffset = 0) (hws : HoldsInput a wsInput)
    (hweight : HoldsFactors a q .oihw wsWeight) (ht : t ∈ sh.outputs) :
    conv sh relu scale wsInput wsWeight a.bias t =
      mvout relu scale (a.accumulator q .oihw t) := by
  obtain ⟨n, oc, oh, ow⟩ := t
  obtain ⟨hn, hoc, -, -⟩ := ConvShape.mem_outputs.mp ht
  have hcells : (cells sh).map (fun cell => cellAt sh wsInput (n, oh, ow) cell *
      wsWeight.getD (cellIndex sh cell * sh.OC + oc) 0) = (cells sh).map fun cell =>
        byteAt a n oh ow (tapOfCell cell) * (a.tensors .oihw).factor q oc (tapOfCell cell) := by
    apply map_congr_left
    intro cell hcell
    rw [cellAt_eq_byteAt a hws hn oh ow hcell, hweight oc hoc cell hcell]
  rw [hconv, hcells, accumulator_eq_cells a .oihw hin n oh ow hoc]

end

/-! ### The bodies -/

section
variable {sh : ConvShape} (q : RvvBlock) (r : RvvRequant) (p : ConvPlatform)
  (ws : EmbeddedWorkspaces p.dim)

/-- The tiled convolution computes what becomes of the accumulators of the checkpoint. -/
theorem computes_gemminiTiledConv (sh : ConvShape) : ∃ f : ℤ → ℤ, ∀ a : ConvArgs sh,
    Computes sh (fun t => f (a.accumulator q.toQuantBlock .oihw t))
      (gemminiTiledConv a q r p ws) := by
  by_cases hfallback : TiledConvFallback sh q.toQuantBlock (embeddedSizes p.dim).wsBytes
  · obtain ⟨f, hf⟩ := exists_elementOf q.toQuantBlock r.toRequantParams
    refine ⟨f, fun a => ?_⟩
    rw [gemminiTiledConv, if_pos hfallback]
    exact a.computes_referenceLoops q.toQuantBlock .oihw hf
  · refine ⟨fun acc => postClamp q.toQuantBlock
      (p.mvout (decide (q.activationMin = 0)) (r.multiplier, r.shift) acc), fun a => ?_⟩
    have hfits := hfallback
    rw [TiledConvFallback] at hfits
    obtain ⟨wsInput, hinput, hws⟩ := transposeInput_spec a
      (show sh.N * sh.IH * sh.IW * sh.IC ≤ ws.wsInput.length by rw [ws.wsInput_length]; omega)
    obtain ⟨wsWeight, hpack, hweight⟩ := packWeight_spec a (q := q.toQuantBlock) (by omega)
      (show sh.OC * sh.KH * sh.KW * sh.IC ≤ ws.wsWeight.length by rw [ws.wsWeight_length]; omega)
    have houtput : sh.N * sh.OH * sh.OW * sh.OC ≤ ws.wsOutput.length := by
      rw [ws.wsOutput_length]
      omega
    have hstores : sh.outputs.map (fun t => (nhwcOut sh t, p.conv sh (decide (q.activationMin = 0))
        (r.multiplier, r.shift) wsInput wsWeight a.bias t)) = sh.outputs.map fun t =>
          (nhwcOut sh t, p.mvout (decide (q.activationMin = 0)) (r.multiplier, r.shift)
            (a.accumulator q.toQuantBlock .oihw t)) := by
      apply map_congr_left
      intro t ht
      rw [conv_eq a p.conv_exact _ _ (by omega) hws hweight ht]
    have hwrites : ∀ w ∈ sh.outputs.map fun t => (nhwcOut sh t, p.mvout
        (decide (q.activationMin = 0)) (r.multiplier, r.shift) (a.accumulator q.toQuantBlock .oihw t)),
        ∃ t ∈ sh.outputs, w = (nhwcOut sh t, p.mvout (decide (q.activationMin = 0))
          (r.multiplier, r.shift) (a.accumulator q.toQuantBlock .oihw t)) := by
      intro w hw
      obtain ⟨t, ht, rfl⟩ := mem_map.mp hw
      exact ⟨t, ht, rfl⟩
    obtain ⟨out, hrun, hcomputes⟩ := computes_unstage (postClamp q.toQuantBlock) houtput hwrites
      fun t ht => mem_map_of_mem ht
    have hkernel : gemminiTiledConv a q r p ws = unstage sh (postClamp q.toQuantBlock) out := by
      rw [gemminiTiledConv, if_neg hfallback, hinput]
      show (packWeight a ws.wsWeight >>= _) = _
      rw [hpack]
      show (runWrites ws.wsOutput _ >>= _) = _
      rw [hstores, hrun]
      rfl
    rw [hkernel]
    exact hcomputes

/-- So does the product with the patches. -/
theorem computes_gemminiIm2colFullC {f : ℤ → ℤ}
    (hf : ∀ acc, elementOf q.toQuantBlock r.toRequantParams acc = .ok (f acc)) (a : ConvArgs sh) :
    Computes sh (fun t => f (a.accumulator q.toQuantBlock .oihw t))
      (gemminiIm2colFullC a q r p ws) := by
  rw [gemminiIm2colFullC]
  by_cases hfallback : GemminiFallback (embeddedSizes p.dim) sh q.toQuantBlock p.dim
  · rw [if_pos hfallback]
    exact a.computes_referenceLoops q.toQuantBlock .oihw hf
  · rw [if_neg hfallback]
    have hfits := hfallback
    rw [GemminiFallback] at hfits
    have htaps : tapCount sh * sh.OC = sh.OC * sh.KH * sh.KW * sh.IC := by
      rw [tapCount]
      ring
    obtain ⟨wsInput, hinput, hws⟩ := transposeInput_spec a
      (show sh.N * sh.IH * sh.IW * sh.IC ≤ ws.wsInput.length by rw [ws.wsInput_length]; omega)
    obtain ⟨wsWeight, hpack, hweight⟩ := packWeight_spec a (q := q.toQuantBlock) (by omega)
      (show sh.OC * sh.KH * sh.KW * sh.IC ≤ ws.wsWeight.length by rw [ws.wsWeight_length]; omega)
    obtain ⟨s, hloop, hwrites, hall⟩ := gemminiLoop_stores a p.matmul (nhwcOut sh) wsWeight
      p.dim_pos p.matmul_exact .oihw (by omega) hf hws hweight
      (show tapCount sh * p.dim ≤ ws.wsIm2col.length by rw [ws.wsIm2col_length]; omega)
      (show sh.OC * p.dim ≤ ws.wsAccOut.length by rw [ws.wsAccOut_length]; omega)
    obtain ⟨out, hrun, hcomputes⟩ := computes_unstage id
      (show sh.N * sh.OH * sh.OW * sh.OC ≤ ws.wsOutput.length by rw [ws.wsOutput_length]; omega)
      hwrites hall
    rw [hinput]
    show Computes sh _ (packWeight a ws.wsWeight >>= _)
    rw [hpack]
    show Computes sh _ (gemminiLoop a _ _ p.dim p.matmul (nhwcOut sh) wsInput wsWeight _ _ >>= _)
    rw [hloop]
    show Computes sh _ (runWrites ws.wsOutput s.writes >>= _)
    rw [hrun]
    exact hcomputes

/-- Every body computes what becomes of the accumulators of the layout in which it reads. -/
theorem computes_bodyKernel (body : ConvBody) (sh : ConvShape) : ∃ f : ℤ → ℤ,
    ∀ (a : ConvArgs sh) (layout : WeightLayout),
      Computes sh (fun t => f (a.accumulator q.toQuantBlock (body.readLayout layout) t))
        (bodyKernel a q r p ws body layout) := by
  obtain ⟨f, hf⟩ := exists_elementOf q.toQuantBlock r.toRequantParams
  cases body with
  | direct => exact ⟨f, fun a layout => a.computes_referenceLoops q.toQuantBlock layout hf⟩
  | rvvWideningOc =>
    exact ⟨f, fun a _ => computes_tileWrites p.narrow p.narrowMax_pos
      (computes_wideningStrip a q r hf p.narrowMax_le)⟩
  | rvvVsmulVnclip =>
    obtain ⟨g, hg⟩ := exists_maskedTail q r
    exact ⟨g, fun a _ => computes_tileWrites p.unit.vsetvl p.unit.vlmax_pos
      (computes_maskedStrip a q r hg p.unit.vlmax_le)⟩
  | rvvOcBlocked => exact ⟨_, fun a _ => computes_rvvOcBlocked a q r p.unit⟩
  | gemminiTiledConv =>
    obtain ⟨g, hg⟩ := computes_gemminiTiledConv q r p ws sh
    exact ⟨g, fun a _ => hg a⟩
  | gemminiIm2colFullC => exact ⟨f, fun a _ => computes_gemminiIm2colFullC q r p ws hf a⟩

end

/-! ### Packed weights -/

variable {full : NdArray ℤ} {OC KW KH IC : ℕ}

/-- Packing keeps every element. -/
theorem length_backendPackWeight (hshape : full.shape = [OC, IC, KH, KW]) (layout : WeightLayout) :
    (backendPackWeight (some layout) full).data.length = OC * IC * KH * KW := by
  have hfour : ¬full.shape.length ≠ 4 := by simp [hshape]
  have hprod : (backendPackWeight (some layout) full).shape.prod = full.shape.prod := by
    rw [backendPackWeight, if_neg hfour]
    cases layout with
    | oihw => rfl
    | hwio =>
      show ([2, 3, 1, 0].map fun axis => full.shape.getD axis 0).prod = _
      rw [hshape]
      show KH * (KW * (IC * (OC * 1))) = OC * (IC * (KH * (KW * 1)))
      ring
    | ihwoc =>
      show ([1, 2, 3, 0].map fun axis => full.shape.getD axis 0).prod = _
      rw [hshape]
      show IC * (KH * (KW * (OC * 1))) = OC * (IC * (KH * (KW * 1)))
      ring
  rw [NdArray.size_eq, hprod, hshape]
  simp only [prod_cons, prod_nil]
  ring

/-- Packing makes up no element. -/
theorem mem_of_mem_backendPackWeight (hshape : full.shape = [OC, IC, KH, KW])
    (layout : WeightLayout) {v : ℤ} (h : v ∈ (backendPackWeight (some layout) full).data) :
    v ∈ full.data := by
  obtain ⟨j, hj⟩ := mem_iff_getElem?.mp h
  obtain ⟨o, -, i, -, x, -, w, -, -, hv⟩ :=
    (storedAs_backendPackWeight hshape (some layout) j v).mp hj
  exact mem_of_getElem? hv

section
variable {sh : ConvShape} (b : ConvArgs sh)

/-- The weight of the checkpoint. -/
def ConvArgs.checkpoint : NdArray ℤ where
  shape := [sh.OC, sh.IC, sh.KH, sh.KW]
  data := b.weight
  size_eq := by
    rw [b.weight_length]
    simp only [prod_cons, prod_nil]
    ring

/-- The buffers on a backend that packs the weight of the checkpoint into the layout. -/
def ConvArgs.pack (layout : WeightLayout) : ConvArgs sh :=
  { b with
    weight := (backendPackWeight (some layout) b.checkpoint).data
    weight_length := length_backendPackWeight rfl layout
    weight_fits := fun v hv => b.weight_fits v (mem_of_mem_backendPackWeight rfl layout hv) }

/-- If the packed weight is found where it is looked for, then it is that of the checkpoint. -/
theorem tensors_pack {layout read : WeightLayout} (h : ∀ o < sh.OC, ∀ i < sh.IC, ∀ x < sh.KH,
      ∀ w < sh.KW, kernelIndex read sh.OC sh.IC sh.KH sh.KW o i x w =
        kernelIndex layout sh.OC sh.IC sh.KH sh.KW o i x w) :
    (b.pack layout).tensors read = b.tensors .oihw := by
  have hweight : ((b.pack layout).tensors read).weight = (b.tensors .oihw).weight := by
    apply map_congr_left
    intro idx hidx
    obtain ⟨o, ho, i, hi, x, hx, w, hw, rfl⟩ := inBounds_four.mp
      (NdArray.inBounds_of_mem_indices hidx)
    obtain ⟨v, hv⟩ := exists_getElem?_of_shape (a := b.checkpoint) rfl ho hi hx hw
    have hpacked := (storedAs_backendPackWeight (a := b.checkpoint) rfl (some layout) _ v).mpr
      ⟨o, ho, i, hi, x, hx, w, hw, rfl, by rw [Nat.zero_add]; exact hv⟩
    show (backendPackWeight (some layout) b.checkpoint).data.getD _ 0 = b.weight.getD _ 0
    rw [h o ho i hi x hx w hw, getD_eq_getElem?_getD, getD_eq_getElem?_getD]
    exact congrArg (Option.getD · 0) (hpacked.trans hv.symm)
  show ConvTensors.mk _ _ _ _ _ _ _ _ _ = ConvTensors.mk _ _ _ _ _ _ _ _ _
  rw [ConvTensors.mk.injEq]
  exact ⟨rfl, hweight, rfl⟩

end

/-! ### The contract of the table -/

/-- A body reads the layout that its backend packs, unless it is one of the accelerator. -/
theorem layout_of_mem {c : AlgorithmCandidate} (hc : c ∈ conv2dS8Algorithms) {body : ConvBody}
    (hbody : c.referenceImpl = some body) :
    ((body ≠ .gemminiTiledConv ∧ body ≠ .gemminiIm2colFullC) ∧
        ∀ layout, c.Builds layout → body.readLayout layout = layout) ∨
      ((body = .gemminiTiledConv ∨ body = .gemminiIm2colFullC) ∧ c.Builds .hwio ∧
        ∀ layout, c.Builds layout → layout = .hwio) := by
  simp only [conv2dS8Algorithms, mem_cons, not_mem_nil, or_false] at hc
  rcases hc with rfl | rfl | rfl | rfl | rfl | rfl | rfl | rfl | rfl | rfl <;> cases hbody
  · exact .inl ⟨⟨by decide, by decide⟩, fun _ _ => rfl⟩
  all_goals first
    | exact .inl ⟨⟨by decide, by decide⟩, fun _ h => (h.resolve_left (cons_ne_nil _ _)).symm⟩
    | exact .inr ⟨by decide, .inr rfl, fun _ h => h.resolve_left (cons_ne_nil _ _)⟩

/-- If all elements of a weight differ, then every body that finds them reads them where they are. -/
theorem rightPlaces_of_reads {read layout : WeightLayout}
    (h : ∀ full : NdArray ℤ, full.shape = [OC, IC, KH, KW] →
      ∀ o < OC, ∀ i < IC, ∀ x < KH, ∀ w < KW,
        (backendPackWeight (some layout) full).data[kernelIndex read OC IC KH KW o i x w]? =
          full.data[kernelIndex .oihw OC IC KH KW o i x w]?) :
    RightPlaces read layout 0 0 OC 0 OC IC KH KW := by
  have hsize : ((List.range [OC, IC, KH, KW].prod).map fun n : ℕ => (n : ℤ)).length =
      [OC, IC, KH, KW].prod := by
    rw [length_map, length_range]
  have hstored := storedAs_backendPackWeight (a := ⟨_, _, hsize⟩) rfl (some layout)
  apply hstored.rightPlaces rfl (Nat.le_of_eq (Nat.zero_add OC))
  · exact nodup_range.map Nat.cast_injective
  · intro o ho i hi x hx w hw
    rw [Nat.zero_add, Nat.zero_add]
    exact h _ rfl o ho i hi x hx w hw

section
variable {OC IC KH KW : ℕ}

/-- Places of the checkpoint are those of the accelerator only if the two orders are the same. -/
theorem sameOrder_of_rightPlaces (hoc : 0 < OC) (hic : 0 < IC) (hkh : 0 < KH) (hkw : 0 < KW)
    (h : RightPlaces .oihw .hwio 0 0 OC 0 OC IC KH KW) : SameOrder .hwio OC IC KH KW := by
  obtain ⟨-, -, hindex⟩ := (rightPlaces_iff hoc hic hkh hkw).mp h
  have hplaces : RightPlaces .hwio .oihw 0 0 OC 0 OC IC KH KW :=
    (rightPlaces_iff hoc hic hkh hkw).mpr ⟨rfl, Nat.le_refl OC, fun o ho i hi x hx w hw =>
      (hindex o ho i hi x hx w hw).symm⟩
  exact ((rightPlaces_unpacked_iff hoc hic hkh hkw).mp hplaces).2.2

/-- A body reads the layout that is packed, if it is not one of the accelerator or if the layout of
the accelerator is the order of the checkpoint. -/
theorem kernelIndex_read_of_sameOrder {c : AlgorithmCandidate} (hc : c ∈ conv2dS8Algorithms)
    {body : ConvBody} (hbody : c.referenceImpl = some body)
    (h : (body ≠ .gemminiTiledConv ∧ body ≠ .gemminiIm2colFullC) ∨ OC * IC * KH * KW = 0 ∨
      SameOrder .hwio OC IC KH KW) :
    ∀ layout, c.Builds layout → ∀ o < OC, ∀ i < IC, ∀ x < KH, ∀ w < KW,
      kernelIndex (body.readLayout layout) OC IC KH KW o i x w =
        kernelIndex layout OC IC KH KW o i x w := by
  intro layout hbuilds o ho i hi x hx w hw
  rcases layout_of_mem hc hbody with ⟨-, hread⟩ | ⟨hgemmini, -, hlayout⟩
  · rw [hread layout hbuilds]
  obtain rfl := hlayout layout hbuilds
  have hread : body.readLayout .hwio = .oihw := by
    rcases hgemmini with rfl | rfl <;> rfl
  have hoc := Nat.zero_lt_of_lt ho
  have hic := Nat.zero_lt_of_lt hi
  have hkh := Nat.zero_lt_of_lt hx
  have hkw := Nat.zero_lt_of_lt hw
  rcases h with hne | hzero | hsame
  · rcases hgemmini with rfl | rfl
    · exact absurd rfl hne.1
    · exact absurd rfl hne.2
  · have hpos := Nat.mul_pos (Nat.mul_pos (Nat.mul_pos hoc hic) hkh) hkw
    omega
  · have hplaces : RightPlaces .hwio .oihw 0 0 OC 0 OC IC KH KW :=
      (rightPlaces_unpacked_iff hoc hic hkh hkw).mpr ⟨rfl, Nat.le_refl OC, hsame⟩
    rw [hread]
    exact (((rightPlaces_iff hoc hic hkh hkw).mp hplaces).2.2 o ho i hi x hx w hw).symm

end

/-- The candidate with the tiled convolution. -/
def gemminiTiledCandidate : AlgorithmCandidate :=
  ⟨"gemmini_tiled_conv", ["gemmini", "gemmini_q31"], .hwio, some .gemminiTiledConv⟩

end ModelBlaster.Kernels

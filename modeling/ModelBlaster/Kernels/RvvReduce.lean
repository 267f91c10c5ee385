import ModelBlaster.Extract.Conv2d
import ModelBlaster.Skeleton.Weights
import ModelBlaster.Library.Rvv

/-!
# The reducing vector kernel

`kernel_conv2d_s8` of the algorithm `im2col_rvv_reduce`. A tile of at most eight elements of an
output row is copied into a strip of the scratch memory, tap by tap. Each element is then the sum of
the lanes of an accumulator, to which the products of the strip and the filter were added one vector
after the other.

The vectors of the products are shorter than the accumulator when few taps are left. The destination
of their addition is not one that keeps its tail, and all of its lanes are added up.

## Main definitions

* `ConvArgs`: the buffers that a kernel reads;
* `referenceConv2dS8`: `CONV2D_S8.reference_impl`, in one of its three weight layouts;
* `runKernel`: what a kernel leaves in the buffer of its output;
* `reduceLoops`, `reduceConv2dS8`: the kernel, with the behaviour of the tails as a parameter;
* `LeavesOnes`: the lanes behind the last taps hold what may overwrite them.

## Main results

* `referenceLoops_eq`: the accumulators are those of the unpacked weights;
* `runKernel_eq_reference`: a kernel leaves what the reference does if it writes every element, and
  nothing but the elements of the reference;
* `buildStrip_spec`: the strip holds the padded input of its elements;
* `reduceAcc_eq`: what the lanes add up to;
* `reduceConv2dS8_exact_iff`: when the kernel is exact for every behaviour of the tails.
-/

/-! ## The arguments of `kernel_conv2d_s8` -/

namespace ModelBlaster.Kernels

open Extract Rounding TwosComplement List

/-! ### Arguments -/

/-- The buffers that a kernel reads: the input in the layout NCHW, the weight as the backend stores
it, and the bias, unless the pointer is null. -/
structure ConvArgs (sh : ConvShape) where
  input : List ℤ
  weight : List ℤ
  bias : Option (List ℤ)
  input_length : input.length = sh.N * sh.IC * sh.IH * sh.IW
  weight_length : weight.length = sh.OC * sh.IC * sh.KH * sh.KW
  bias_length : ∀ b ∈ bias, b.length = sh.OC
  input_fits : ∀ v ∈ input, Fits 8 v
  weight_fits : ∀ v ∈ weight, Fits 8 v
  bias_fits : ∀ b ∈ bias, ∀ v ∈ b, Fits 32 v

/-- A multiplier and a shift for which C defines what the reference does. -/
structure RequantParams where
  multiplier : ℤ
  shift : ℤ
  multiplier_fits : Fits 32 multiplier
  shift_ge : -31 ≤ shift
  shift_lt : shift < 64

/-- The place of the weight of a tap. -/
def weightIndex (sh : ConvShape) (layout : WeightLayout) (oc : ℕ) : ℕ × ℕ × ℕ → ℕ
  | (ic, kh, kw) => kernelIndex layout sh.OC sh.IC sh.KH sh.KW oc ic kh kw

/-! ### The reference -/

section
variable {sh : ConvShape} (a : ConvArgs sh) (q : QuantBlock)

/-- `bias ? bias[oc] : 0` -/
def biasAt (oc : ℕ) : Except CFault ℤ :=
  match a.bias with
  | some b => Extract.load b oc
  | none => .ok 0

/-- `in_v`: the input that a tap meets, with its padding. -/
def tapInput (n oh ow : ℕ) : ℕ × ℕ × ℕ → Except CFault ℤ
  | (ic, kh, kw) =>
    if sh.ih kh oh < 0 ∨ sh.IH ≤ sh.ih kh oh ∨ sh.iw kw ow < 0 ∨ sh.IW ≤ sh.iw kw ow then
      .ok q.inputOffset
    else do
      let v ← Extract.load a.input (((n * sh.IC + ic : ℕ) * sh.IH + sh.ih kh oh) * sh.IW + sh.iw kw ow)
      return wrap 32 (v + q.inputOffset)

/-- The accumulator of an element of the output. -/
def referenceAcc (layout : WeightLayout) (n oc oh ow : ℕ) : Except CFault ℤ := do
  let bias ← biasAt a oc
  sh.taps.foldlM (fun acc tap => do
    let inV ← tapInput a q n oh ow tap
    let w ← Extract.load a.weight (weightIndex sh layout oc tap)
    return wrap 32 (acc + wrap 32 (inV * wrap 32 (w + q.filterOffset)))) bias

/-- The loops of the reference. The accumulators go through `post`. -/
def referenceLoops (layout : WeightLayout) (post : ℤ → Except CFault ℤ) :
    Except CFault (List (ℕ × ℤ)) :=
  sh.outputs.mapM fun
    | (n, oc, oh, ow) => do
      let acc ← referenceAcc a q layout n oc oh ow
      let v ← post acc
      return (sh.outputAddr n oc oh ow, v)

end

/-- What becomes of an accumulator: the requantisation, the offset and the range. -/
def elementOf (q : QuantBlock) (r : RequantParams) (acc : ℤ) : Except CFault ℤ :=
  q.kernelElement r.multiplier r.shift acc

/-- The writes of `CONV2D_S8.reference_impl`. -/
def referenceConv2dS8 {sh : ConvShape} (a : ConvArgs sh) (q : QuantBlock) (r : RequantParams)
    (layout : WeightLayout) : Except CFault (List (ℕ × ℤ)) :=
  referenceLoops a q layout (elementOf q r)

/-! ### Memory -/

/-- A write to a buffer. -/
def writeTo (out : List ℤ) (w : ℕ × ℤ) : Except CFault (List ℤ) :=
  if w.1 < out.length then .ok (out.set w.1 w.2) else .error .undefinedBehaviour

/-- A buffer after writes to it. -/
def runWrites (out : List ℤ) (writes : List (ℕ × ℤ)) : Except CFault (List ℤ) :=
  writes.foldlM writeTo out

/-- The buffer of the output after a kernel has run. -/
def runKernel (out : List ℤ) (kernel : Except CFault (List (ℕ × ℤ))) : Except CFault (List ℤ) := do
  let writes ← kernel
  runWrites out writes

variable {out : List ℤ} {writes : List (ℕ × ℤ)} {sh : ConvShape} {value : ℕ × ℕ × ℕ × ℕ → ℤ}

/-- Writes of the values of a function change a buffer where they go to, and nowhere else. -/
theorem runWrites_spec {f : ℕ → ℤ} (h : ∀ w ∈ writes, w.1 < out.length ∧ w.2 = f w.1) :
    ∃ out', runWrites out writes = .ok out' ∧ out'.length = out.length ∧
      ∀ i, out'[i]? = if i ∈ writes.map Prod.fst then some (f i) else out[i]? := by
  induction writes generalizing out with
  | nil => exact ⟨out, rfl, rfl, fun i => by simp⟩
  | cons w rest ih =>
    obtain ⟨hlt, hval⟩ := h w mem_cons_self
    have hrest : ∀ w' ∈ rest, w'.1 < (out.set w.1 w.2).length ∧ w'.2 = f w'.1 := by
      intro w' hw'
      rw [length_set]
      exact h w' (mem_cons_of_mem w hw')
    obtain ⟨out', hrun, hlen, hget⟩ := ih hrest
    refine ⟨out', ?_, by rw [hlen, length_set], fun i => ?_⟩
    · have hhead : writeTo out w = .ok (out.set w.1 w.2) := if_pos hlt
      rw [runWrites, foldlM_cons, hhead]
      exact hrun
    · rw [hget, map_cons]
      by_cases hmem : i ∈ rest.map Prod.fst
      · rw [if_pos hmem, if_pos (mem_cons_of_mem _ hmem)]
      · by_cases heq : i = w.1
        · subst heq
          rw [if_neg hmem, if_pos mem_cons_self, getElem?_set_self hlt, hval]
        · rw [if_neg hmem, getElem?_set_ne (Ne.symm heq), if_neg]
          rw [mem_cons, not_or]
          exact ⟨heq, hmem⟩

/-- Writes that agree with one another leave their values, and the rest as it was. -/
theorem runWrites_of_agree (out : List ℤ) (hlt : ∀ w ∈ writes, w.1 < out.length)
    (hagree : ∀ w ∈ writes, ∀ w' ∈ writes, w.1 = w'.1 → w.2 = w'.2) :
    ∃ out', runWrites out writes = .ok out' ∧ out'.length = out.length ∧
      (∀ w ∈ writes, out'[w.1]? = some w.2) ∧
      ∀ i, i ∉ writes.map Prod.fst → out'[i]? = out[i]? := by
  have hvalue : ∀ w ∈ writes, w.2 = ((writes.find? fun w' => w'.1 = w.1).map Prod.snd).getD 0 := by
    intro w hw
    cases hfind : writes.find? fun w' => w'.1 = w.1 with
    | none => simpa using find?_eq_none.mp hfind w hw
    | some w' =>
      have heq : w'.1 = w.1 := by simpa using find?_some hfind
      exact hagree w hw w' (mem_of_find?_eq_some hfind) heq.symm
  obtain ⟨out', hrun, hlen, hget⟩ := runWrites_spec
    (f := fun i => ((writes.find? fun w' => w'.1 = i).map Prod.snd).getD 0)
    fun w hw => ⟨hlt w hw, hvalue w hw⟩
  refine ⟨out', hrun, hlen, fun w hw => ?_, fun i hi => ?_⟩
  · rw [hget, if_pos (mem_map_of_mem hw), ← hvalue w hw]
  · rw [hget, if_neg hi]

/-! ### Kernels that compute an output -/

/-- The address of an element of the output. -/
def outAddr (sh : ConvShape) : ℕ × ℕ × ℕ × ℕ → ℕ
  | (n, oc, oh, ow) => sh.outputAddr n oc oh ow

/-- The kernel runs, writes every element of the output, and writes nothing else. -/
def Computes (sh : ConvShape) (value : ℕ × ℕ × ℕ × ℕ → ℤ)
    (kernel : Except CFault (List (ℕ × ℤ))) : Prop :=
  ∃ writes, kernel = .ok writes ∧ (∀ w ∈ writes, ∃ t ∈ sh.outputs, w = (outAddr sh t, value t)) ∧
    ∀ t ∈ sh.outputs, (outAddr sh t, value t) ∈ writes

/-- The elements of the output are addressed in their order. -/
theorem getElem?_outputs_iff {t : ℕ × ℕ × ℕ × ℕ} {i : ℕ} :
    sh.outputs[i]? = some t ↔ t ∈ sh.outputs ∧ outAddr sh t = i :=
  PyList.getElem?_iff_of_map_range sh.map_outputAddr

/-- What a kernel leaves that computes the output. -/
theorem runKernel_of_computes {kernel : Except CFault (List (ℕ × ℤ))} (h : Computes sh value kernel)
    (hout : out.length = sh.outputs.length) :
    runKernel out kernel = .ok (sh.outputs.map value) := by
  obtain ⟨writes, rfl, hwrites, hall⟩ := h
  have hvalues : ∀ w ∈ writes, w.1 < out.length ∧ w.2 = ((sh.outputs[w.1]?).map value).getD 0 := by
    intro w hw
    obtain ⟨t, ht, rfl⟩ := hwrites w hw
    have hget := getElem?_outputs_iff.mpr ⟨ht, rfl⟩
    rw [hout, hget]
    exact ⟨(List.getElem?_eq_some_iff.mp hget).1, rfl⟩
  obtain ⟨out', hrun, hlen, hget⟩ := runWrites_spec (f := fun i => ((sh.outputs[i]?).map value).getD 0) hvalues
  show runWrites out writes = _
  rw [hrun]
  apply congrArg Except.ok
  apply ext_getElem?
  intro i
  rw [hget, getElem?_map]
  cases hi : sh.outputs[i]? with
  | none =>
    rw [List.getElem?_eq_none_iff] at hi
    rw [if_neg, getElem?_eq_none (by omega)]
    · rfl
    · intro hmem
      obtain ⟨w, hw, rfl⟩ := mem_map.mp hmem
      have hlt := (hvalues w hw).1
      omega
  | some t =>
    obtain ⟨ht, rfl⟩ := getElem?_outputs_iff.mp hi
    rw [if_pos (mem_map_of_mem (hall t ht))]
    rfl

/-- A loop over the elements of the output computes it. -/
theorem computes_mapM {element : ℕ × ℕ × ℕ × ℕ → Except CFault (ℕ × ℤ)}
    (h : ∀ t ∈ sh.outputs, element t = .ok (outAddr sh t, value t)) :
    Computes sh value (sh.outputs.mapM element) := by
  refine ⟨_, Fallible.mapM_eq_ok_map h, fun w hw => ?_, fun t ht => mem_map_of_mem ht⟩
  obtain ⟨t, ht, rfl⟩ := mem_map.mp hw
  exact ⟨t, ht, rfl⟩

/-! ### The accumulators of the reference -/

theorem kernelIndex_lt_size (layout : WeightLayout) {oc ic kh kw o i h w : ℕ} (ho : o < oc)
    (hi : i < ic) (hh : h < kh) (hw : w < kw) :
    kernelIndex layout oc ic kh kw o i h w < oc * ic * kh * kw := by
  cases layout with
  | oihw => exact PyList.mul_add_lt (PyList.mul_add_lt (PyList.mul_add_lt ho hi) hh) hw
  | hwio =>
    have hlt := PyList.mul_add_lt (PyList.mul_add_lt (PyList.mul_add_lt hh hw) hi) ho
    calc kernelIndex .hwio oc ic kh kw o i h w < kh * kw * ic * oc := hlt
      _ = oc * ic * kh * kw := by ring
  | ihwoc =>
    have hlt := PyList.mul_add_lt (PyList.mul_add_lt (PyList.mul_add_lt hi hh) hw) ho
    calc kernelIndex .ihwoc oc ic kh kw o i h w < ic * kh * kw * oc := hlt
      _ = oc * ic * kh * kw := by ring

namespace ConvArgs

variable {sh : ConvShape} (a : ConvArgs sh)

/-- The tensors that the buffers hold: the weight in the layout of the checkpoint, and zeros for a
missing bias. -/
def tensors (layout : WeightLayout) : ConvTensors sh where
  input := a.input
  weight := (NdArray.indices [sh.OC, sh.IC, sh.KH, sh.KW]).map fun
    | [o, i, h, w] => a.weight.getD (kernelIndex layout sh.OC sh.IC sh.KH sh.KW o i h w) 0
    | _ => 0
  bias := a.bias.getD (List.replicate sh.OC 0)
  input_length := a.input_length
  weight_length := by
    rw [length_map, NdArray.length_indices]
    simp only [prod_cons, prod_nil]
    ring
  bias_length := by
    cases hbias : a.bias with
    | none => exact length_replicate
    | some b => exact a.bias_length b hbias
  input_fits := a.input_fits
  weight_fits := by
    intro v hv
    obtain ⟨idx, -, rfl⟩ := mem_map.mp hv
    split
    · exact fits_getD a.weight_fits _
    · decide
  bias_fits := by
    intro v hv
    cases hbias : a.bias with
    | none =>
      rw [hbias] at hv
      rw [eq_of_mem_replicate hv]
      decide
    | some b =>
      rw [hbias] at hv
      exact a.bias_fits b hbias v hv

variable {n oc oh ow ic kh kw : ℕ} {layout : WeightLayout} {tap : ℕ × ℕ × ℕ}

/-- The filter is the one that the buffer holds. -/
theorem weightAt_tensors (hoc : oc < sh.OC) (hic : ic < sh.IC) (hkh : kh < sh.KH) (hkw : kw < sh.KW) :
    (a.tensors layout).weightAt oc ic kh kw =
      a.weight.getD (weightIndex sh layout oc (ic, kh, kw)) 0 := by
  have hbounds : NdArray.InBounds [sh.OC, sh.IC, sh.KH, sh.KW] [oc, ic, kh, kw] :=
    .cons hoc (.cons hic (.cons hkh (.cons hkw .nil)))
  have haddr : sh.weightAddr oc ic kh kw =
      NdArray.ravel [sh.OC, sh.IC, sh.KH, sh.KW] [oc, ic, kh, kw] :=
    (kernelIndex_eq_ravel sh.OC sh.IC sh.KH sh.KW oc ic kh kw).1
  rw [ConvTensors.weightAt, haddr, tensors, getD_eq_getElem?_getD, getElem?_map,
    (NdArray.getElem?_indices hbounds).2]
  rfl

theorem load_weight (hoc : oc < sh.OC) (htap : tap ∈ sh.taps) :
    Extract.load a.weight (weightIndex sh layout oc tap) =
      .ok (a.weight.getD (weightIndex sh layout oc tap) 0) := by
  obtain ⟨hic, hkh, hkw⟩ := ConvShape.mem_taps.mp htap
  apply load_of_lt
  rw [a.weight_length]
  exact kernelIndex_lt_size layout hoc hic hkh hkw

/-- The factor of a tap, as it is read. -/
theorem factor_tensors (q : QuantBlock) (hoc : oc < sh.OC) (htap : tap ∈ sh.taps) :
    (a.tensors layout).factor q oc tap =
      wrap 32 (a.weight.getD (weightIndex sh layout oc tap) 0 + q.filterOffset) := by
  obtain ⟨hic, hkh, hkw⟩ := ConvShape.mem_taps.mp htap
  rw [ConvTensors.factor, a.weightAt_tensors hoc hic hkh hkw]

/-- The input of a tap, as it is read. -/
theorem tapInput_eq (q : QuantBlock) (hn : n < sh.N) (htap : tap ∈ sh.taps) :
    tapInput a q n oh ow tap = .ok ((a.tensors layout).inputAt q n oh ow tap) := by
  obtain ⟨ic, kh, kw⟩ := tap
  have hic := (ConvShape.mem_taps.mp htap).1
  rw [tapInput]
  by_cases hin : sh.RowInside kh oh ∧ sh.ColInside kw ow
  · have hread : (a.tensors layout).inputAt q n oh ow (ic, kh, kw) = _ := if_pos hin
    have hload := (a.tensors layout).load_input hn hic hin.1 hin.2
    obtain ⟨⟨hlo, hhi⟩, hlo', hhi'⟩ := hin
    rw [if_neg (by omega), hread]
    show (Extract.load (a.tensors layout).input _ >>= _) = _
    rw [hload]
    rfl
  · have hread : (a.tensors layout).inputAt q n oh ow (ic, kh, kw) = _ := if_neg hin
    rw [ConvShape.RowInside, ConvShape.ColInside] at hin
    rw [hread, if_pos (by omega)]

theorem biasAt_eq (hoc : oc < sh.OC) :
    biasAt a oc = .ok ((a.tensors layout).bias.getD oc 0) := by
  show biasAt a oc = .ok ((a.bias.getD (List.replicate sh.OC 0)).getD oc 0)
  rw [biasAt]
  cases hbias : a.bias with
  | none => simp [hoc]
  | some b => exact load_of_lt (by rwa [a.bias_length b hbias])

/-- The accumulator of an element of the output, with the weight in a layout. -/
def accumulator (q : QuantBlock) (layout : WeightLayout) : ℕ × ℕ × ℕ × ℕ → ℤ
  | (n, oc, oh, ow) => (a.tensors layout).accumulator q n oc oh ow

theorem referenceAcc_eq (q : QuantBlock) (layout : WeightLayout) (hn : n < sh.N) (hoc : oc < sh.OC) :
    referenceAcc a q layout n oc oh ow = .ok (a.accumulator q layout (n, oc, oh, ow)) := by
  have hsum := foldl_wrap_add (fun tap => wrap 32 ((a.tensors layout).inputAt q n oh ow tap *
    (a.tensors layout).factor q oc tap)) sh.taps
      (wrap_eq_self (by decide : 0 < 32) ((a.tensors layout).fits_bias oc))
  have hterms : wrap 32 ((a.tensors layout).bias.getD oc 0 + (sh.taps.map fun tap =>
      wrap 32 ((a.tensors layout).inputAt q n oh ow tap *
        (a.tensors layout).factor q oc tap)).sum) =
        a.accumulator q layout (n, oc, oh, ow) := wrap_sum_wrap _ _ _
  rw [referenceAcc, a.biasAt_eq hoc, ← hterms, ← hsum]
  apply Fallible.foldlM_eq_ok_foldl
  intro tap htap acc
  rw [a.tapInput_eq q hn htap, a.load_weight hoc htap, a.factor_tensors q hoc htap]
  rfl

/-- The reference computes what becomes of the accumulators. -/
theorem computes_referenceLoops (q : QuantBlock) (layout : WeightLayout)
    {post : ℤ → Except CFault ℤ} {f : ℤ → ℤ} (hpost : ∀ acc, post acc = .ok (f acc)) :
    Computes sh (fun t => f (a.accumulator q layout t)) (referenceLoops a q layout post) := by
  apply computes_mapM
  rintro ⟨n, oc, oh, ow⟩ ht
  obtain ⟨hn, hoc, -, -⟩ := ConvShape.mem_outputs.mp ht
  show (referenceAcc a q layout n oc oh ow >>= _) = _
  rw [a.referenceAcc_eq q layout hn hoc]
  show (post _ >>= _) = _
  rw [hpost]
  rfl

end ConvArgs

/-- Every accumulator is requantised. -/
theorem exists_elementOf (q : QuantBlock) (r : RequantParams) :
    ∃ f : ℤ → ℤ, ∀ acc, elementOf q r acc = .ok (f acc) := by
  have hrequantize : ∀ acc, ∃ v, requantizeC acc r.multiplier r.shift = .ok v := by
    intro acc
    have hge := r.shift_ge
    have hlt := r.shift_lt
    rw [requantizeC]
    split_ifs
    · exact ⟨_, rfl⟩
    · exact ⟨_, rfl⟩
    · omega
    · exact ⟨_, rfl⟩
  choose f hf using hrequantize
  refine ⟨fun acc => q.kernelStore (f acc), fun acc => ?_⟩
  rw [elementOf, QuantBlock.kernelElement, hf]
  rfl

end ModelBlaster.Kernels

namespace ModelBlaster.Kernels

open Extract TwosComplement Rvv List Fallible

/-- `MODELBLASTER_OPU_CONV_SCRATCH_BYTES` -/
def scratchBytes : ℕ := 24 * 1024

/-- `MODELBLASTER_OPU_CONV_M_TILE` -/
def convMTile : ℕ := 8

/-- The lanes of the accumulator: the longest vector of `e32, m4`, and of `e8, m1`. -/
def vlmaxI32 : ℕ := 16

/-- `K`: the number of taps of a filter. -/
def tapCount (sh : ConvShape) : ℕ := sh.IC * sh.KH * sh.KW

/-- The place of a tap in a filter. -/
def tapIndex (sh : ConvShape) : ℕ × ℕ × ℕ → ℕ
  | (ic, kh, kw) => (ic * sh.KH + kh) * sh.KW + kw

/-! ### Instructions -/

/-- `__riscv_vle8_v_i8m1`: the elements of the body. -/
def vle8 (a : List ℤ) (addr vl : ℕ) : Except CFault (List ℤ) :=
  (List.range vl).mapM fun i => Extract.load a (addr + i : ℕ)

/-- `__riscv_vwmul_vv_i16m2`: the elements of the body. -/
def vwmulVv (va vb : List ℤ) : List ℤ := zipWith (fun x y => wrap 16 (x * y)) va vb

/-- `__riscv_vwadd_wv_i32m4` -/
def vwaddWv (tail : ℕ → Bool) (vacc : ℕ → ℤ) (prod : List ℤ) (vl : ℕ) : ℕ → ℤ :=
  tailAgnostic vl tail vacc fun i => wrap 32 (vacc i + prod.getD i 0)

/-- `__riscv_vredsum_vs_i32m4_i32m1`: the first element of the result. -/
def vredsum (vacc : ℕ → ℤ) (init : ℤ) (vl : ℕ) : ℤ :=
  wrap 32 (init + ((List.range vl).map vacc).sum)

/-- For every element of the output and every vector of its loop, the lanes of the tail that are
overwritten. -/
abbrev Tails : Type := ℕ × ℕ × ℕ × ℕ → ℕ → ℕ → Bool

/-! ### The kernel -/

section
variable {sh : ConvShape} (a : ConvArgs sh) (q : QuantBlock)

/-- The test for `conv2d_s8_scalar_fallback`. -/
def ReduceFallback (sh : ConvShape) (q : QuantBlock) : Prop :=
  q.inputOffset ≠ 0 ∨ q.filterOffset ≠ 0 ∨ scratchBytes < tapCount sh * convMTile

instance : Decidable (ReduceFallback sh q) := inferInstanceAs (Decidable (_ ∨ _ ∨ _))

/-- `conv2d_s8_scalar_fallback` -/
def scalarFallbackLoops (post : ℤ → Except CFault ℤ) : Except CFault (List (ℕ × ℤ)) :=
  referenceLoops a q .oihw post

/-- `ow_tile`: where the tiles of an output row begin. -/
def tileStarts (sh : ConvShape) : List ℕ :=
  (List.range ((sh.OW + convMTile - 1) / convMTile)).map (convMTile * ·)

/-- `M_tile`: the elements of a tile. -/
def tileSize (sh : ConvShape) (owTile : ℕ) : ℕ := min (sh.OW - owTile) convMTile

/-- The write that a tap of an element of the tile makes to the strip. -/
def stripWrite (n oh owTile : ℕ) : ℕ × ℕ × ℕ × ℕ → Except CFault (Option (ℕ × ℤ))
  | (m, ic, kh, kw) =>
    if sh.ih kh oh < 0 ∨ sh.IH ≤ sh.ih kh oh then .ok none
    else if sh.iw kw (owTile + m) < 0 ∨ sh.IW ≤ sh.iw kw (owTile + m) then .ok none
    else do
      let v ← Extract.load a.input
        (((n * sh.IC + ic : ℕ) * sh.IH + sh.ih kh oh) * sh.IW + sh.iw kw (owTile + m))
      return some (m * tapCount sh + tapIndex sh (ic, kh, kw), v)

/-- `memset(strip, 0, K * M_tile)` -/
def clearStrip (strip : List ℤ) (size : ℕ) : List ℤ :=
  List.replicate (min size strip.length) 0 ++ strip.drop size

/-- The strip of a tile. -/
def buildStrip (strip : List ℤ) (n oh owTile : ℕ) : Except CFault (List ℤ) := do
  let writes ← (List.range (tileSize sh owTile) ×ˢ sh.taps).mapM (stripWrite a n oh owTile)
  runWrites (clearStrip strip (tapCount sh * tileSize sh owTile)) writes.reduceOption

/-- A vector of the loop over the taps. -/
def reduceStep (strip : List ℤ) (tails : ℕ → ℕ → Bool) (m oc : ℕ) (vacc : ℕ → ℤ) (s : ℕ × ℕ) :
    Except CFault (ℕ → ℤ) := do
  let va ← vle8 strip (m * tapCount sh + s.1) s.2
  let vb ← vle8 a.weight (oc * tapCount sh + s.1) s.2
  return vwaddWv (tails s.1) vacc (vwmulVv va vb) s.2

/-- `if (bias) acc += bias[oc]` -/
def addBias (oc : ℕ) (acc : ℤ) : Except CFault ℤ :=
  match a.bias with
  | some b => do
    let x ← Extract.load b oc
    return wrap 32 (acc + x)
  | none => .ok acc

/-- The accumulator of an element of the tile. -/
def reduceAcc (v : Vsetvl vlmaxI32) (strip : List ℤ) (tails : ℕ → ℕ → Bool) (m oc : ℕ) :
    Except CFault ℤ := do
  let vacc ← (v.strips 0 (tapCount sh)).foldlM (reduceStep a strip tails m oc) fun _ => 0
  addBias a oc (vredsum vacc 0 vlmaxI32)

/-- A tile: the strip that it leaves, and its writes to the output. -/
def reduceTile (v : Vsetvl vlmaxI32) (tails : Tails) (post : ℤ → Except CFault ℤ)
    (strip : List ℤ) : ℕ × ℕ × ℕ → Except CFault (List ℤ × List (ℕ × ℤ))
  | (n, oh, owTile) => do
    let strip ← buildStrip a strip n oh owTile
    let writes ← (List.range (tileSize sh owTile) ×ˢ List.range sh.OC).mapM fun p => do
      let acc ← reduceAcc a v strip (tails (n, p.2, oh, owTile + p.1)) p.1 p.2
      let x ← post acc
      return (sh.outputAddr n p.2 oh (owTile + p.1), x)
    return (strip, writes)

/-- The loops of the kernel, on the strip that an earlier call has left. The accumulators go through
`post`. -/
def reduceLoops (v : Vsetvl vlmaxI32) (tails : Tails) (strip : List ℤ)
    (post : ℤ → Except CFault ℤ) : Except CFault (List (ℕ × ℤ)) :=
  if ReduceFallback sh q then scalarFallbackLoops a q post
  else do
    let s ← (List.range sh.N ×ˢ List.range sh.OH ×ˢ tileStarts sh).foldlM
      (fun s tile => do
        let r ← reduceTile a v tails post s.1 tile
        return (r.1, s.2 ++ r.2)) (strip, [])
    return s.2

/-- The writes of `kernel_conv2d_s8`. -/
def reduceConv2dS8 (r : RequantParams) (v : Vsetvl vlmaxI32) (tails : Tails) (strip : List ℤ) :
    Except CFault (List (ℕ × ℤ)) :=
  reduceLoops a q v tails strip (elementOf q r)

end

/-! ### Taps -/

section
variable {sh : ConvShape} {tap : ℕ × ℕ × ℕ}

/-- The taps are numbered in their order. -/
theorem getElem?_taps_iff {k : ℕ} :
    sh.taps[k]? = some tap ↔ tap ∈ sh.taps ∧ tapIndex sh tap = k := by
  apply PyList.getElem?_iff_of_map_range
  have hlen : sh.taps.length = tapCount sh := by
    simp [ConvShape.taps, tapCount, length_product, Nat.mul_assoc]
  rw [hlen, tapCount, ← map_id (List.range _), PyList.map_range_mul, PyList.flatMap_range_mul]
  simp only [ConvShape.taps, PyList.map_product]
  rfl

theorem tapIndex_lt (h : tap ∈ sh.taps) : tapIndex sh tap < tapCount sh := by
  obtain ⟨hic, hkh, hkw⟩ := ConvShape.mem_taps.mp h
  exact PyList.mul_add_lt (PyList.mul_add_lt hic hkh) hkw

theorem length_taps : sh.taps.length = tapCount sh := by
  simp [ConvShape.taps, tapCount, length_product, Nat.mul_assoc]

/-- No two taps of two elements have one place in the strip. -/
theorem stripIndex_inj {m m' : ℕ} {tap' : ℕ × ℕ × ℕ} (htap : tap ∈ sh.taps) (htap' : tap' ∈ sh.taps)
    (h : m * tapCount sh + tapIndex sh tap = m' * tapCount sh + tapIndex sh tap') :
    m = m' ∧ tap = tap' := by
  obtain ⟨hm, hidx⟩ := PyList.mul_add_inj (tapIndex_lt htap) (tapIndex_lt htap') h
  have hget := getElem?_taps_iff.mpr ⟨htap, hidx⟩
  rw [getElem?_taps_iff.mpr ⟨htap', rfl⟩] at hget
  exact ⟨hm, (Option.some.inj hget).symm⟩

/-- In the layout of the checkpoint, the filters of the channels follow one another. -/
theorem weightIndex_oihw (oc : ℕ) (tap : ℕ × ℕ × ℕ) :
    weightIndex sh .oihw oc tap = oc * tapCount sh + tapIndex sh tap := by
  obtain ⟨ic, kh, kw⟩ := tap
  show ((oc * sh.IC + ic) * sh.KH + kh) * sh.KW + kw = _
  rw [tapCount, tapIndex]
  ring

end

/-! ### The strip -/

section
variable {sh : ConvShape} {a : ConvArgs sh} {q : QuantBlock} {n oc oh ow owTile m : ℕ}

/-- Without offsets, the input of a tap is a byte. -/
theorem fits_inputAt {x : ConvTensors sh} (hq : q.inputOffset = 0) (tap : ℕ × ℕ × ℕ) :
    Fits 8 (x.inputAt q n oh ow tap) := by
  obtain ⟨ic, kh, kw⟩ := tap
  rw [ConvTensors.inputAt]
  split_ifs with hin
  · have hfits := fits_getD x.input_fits (((n * sh.IC + ic) * sh.IH + (sh.ih kh oh).toNat) * sh.IW +
      (sh.iw kw ow).toNat)
    rw [hq, add_zero, wrap_eq_self (by decide)]
    · exact hfits
    · rw [Fits] at hfits ⊢
      omega
  · rw [hq]
    decide

/-- The write of a tap, if it is in the image. -/
def stripValue (x : ConvTensors sh) (q : QuantBlock) (n oh owTile : ℕ) (p : ℕ × ℕ × ℕ × ℕ) :
    Option (ℕ × ℤ) :=
  if sh.RowInside p.2.2.1 oh ∧ sh.ColInside p.2.2.2 (owTile + p.1) then
    some (p.1 * tapCount sh + tapIndex sh p.2, x.inputAt q n oh (owTile + p.1) p.2)
  else none

theorem stripWrite_eq (hq : q.inputOffset = 0) (hn : n < sh.N) {p : ℕ × ℕ × ℕ × ℕ}
    (hp : p.2 ∈ sh.taps) :
    stripWrite a n oh owTile p = .ok (stripValue (a.tensors .oihw) q n oh owTile p) := by
  obtain ⟨m, ic, kh, kw⟩ := p
  have hic := (ConvShape.mem_taps.mp hp).1
  rw [stripWrite, stripValue]
  by_cases hin : sh.RowInside kh oh ∧ sh.ColInside kw (owTile + m)
  · have hread : (a.tensors .oihw).inputAt q n oh (owTile + m) (ic, kh, kw) = _ := if_pos hin
    have hload := (a.tensors .oihw).load_input hn hic hin.1 hin.2
    have hfits := fits_getD (a.tensors .oihw).input_fits
      (((n * sh.IC + ic) * sh.IH + (sh.ih kh oh).toNat) * sh.IW + (sh.iw kw (owTile + m)).toNat)
    rw [hq, add_zero, wrap_eq_self (by decide) (by rw [Fits] at hfits ⊢; omega)] at hread
    rw [if_pos hin, hread]
    obtain ⟨⟨hlo, hhi⟩, hlo', hhi'⟩ := hin
    rw [if_neg (by omega), if_neg (by omega)]
    show (Extract.load (a.tensors .oihw).input _ >>= _) = _
    rw [hload]
    rfl
  · rw [if_neg hin]
    rw [ConvShape.RowInside, ConvShape.ColInside] at hin
    split_ifs
    · rfl
    · rfl
    · omega

/-- The strip holds the padded input of the elements of its tile, whatever it held before. -/
theorem buildStrip_spec (a : ConvArgs sh) (oh owTile : ℕ) (hq : ¬ReduceFallback sh q)
    (hn : n < sh.N) {strip : List ℤ} (hlen : strip.length = scratchBytes) :
    ∃ strip', buildStrip a strip n oh owTile = .ok strip' ∧ strip'.length = scratchBytes ∧
      ∀ m < tileSize sh owTile, ∀ tap ∈ sh.taps, strip'[m * tapCount sh + tapIndex sh tap]? =
        some ((a.tensors .oihw).inputAt q n oh (owTile + m) tap) := by
  obtain ⟨hin, -, hsize⟩ : q.inputOffset = 0 ∧ q.filterOffset = 0 ∧
      tapCount sh * convMTile ≤ scratchBytes := by
    rw [ReduceFallback] at hq
    omega
  have htile : tapCount sh * tileSize sh owTile ≤ scratchBytes :=
    (Nat.mul_le_mul_left _ (Nat.min_le_right _ _)).trans hsize
  have hclear : (clearStrip strip (tapCount sh * tileSize sh owTile)).length = scratchBytes := by
    rw [clearStrip, length_append, length_replicate, length_drop]
    omega
  have hmapM : (List.range (tileSize sh owTile) ×ˢ sh.taps).mapM (stripWrite a n oh owTile) =
      .ok ((List.range (tileSize sh owTile) ×ˢ sh.taps).map
        (stripValue (a.tensors .oihw) q n oh owTile)) :=
    mapM_eq_ok_map fun p hp => stripWrite_eq hin hn (mem_product.mp hp).2
  -- Every write belongs to one tap of one element of the tile.
  have hmem : ∀ w ∈ ((List.range (tileSize sh owTile) ×ˢ sh.taps).map
      (stripValue (a.tensors .oihw) q n oh owTile)).reduceOption, ∃ m < tileSize sh owTile,
      ∃ tap ∈ sh.taps, w = (m * tapCount sh + tapIndex sh tap,
        (a.tensors .oihw).inputAt q n oh (owTile + m) tap) := by
    intro w hw
    obtain ⟨p, hp, hval⟩ := mem_map.mp (reduceOption_mem_iff.mp hw)
    obtain ⟨hm, htap⟩ := mem_product.mp hp
    rw [stripValue] at hval
    split_ifs at hval
    exact ⟨p.1, mem_range.mp hm, p.2, htap, (Option.some.inj hval).symm⟩
  have haddr : ∀ m < tileSize sh owTile, ∀ tap ∈ sh.taps,
      m * tapCount sh + tapIndex sh tap < tapCount sh * tileSize sh owTile := by
    intro m hm tap htap
    rw [Nat.mul_comm (tapCount sh)]
    exact PyList.mul_add_lt hm (tapIndex_lt htap)
  obtain ⟨strip', hrun, hlen', hwritten, hkept⟩ := runWrites_of_agree
    (clearStrip strip (tapCount sh * tileSize sh owTile)) (fun w hw => by
      obtain ⟨m, hm, tap, htap, rfl⟩ := hmem w hw
      rw [hclear]
      exact (haddr m hm tap htap).trans_le htile) (fun w hw w' hw' heq => by
      obtain ⟨m, hm, tap, htap, rfl⟩ := hmem w hw
      obtain ⟨m', hm', tap', htap', rfl⟩ := hmem w' hw'
      obtain ⟨rfl, rfl⟩ := stripIndex_inj htap htap' heq
      rfl)
  refine ⟨strip', ?_, hlen'.trans hclear, fun m hm tap htap => ?_⟩
  · rw [buildStrip, hmapM]
    exact hrun
  · by_cases hmem' : m * tapCount sh + tapIndex sh tap ∈ ((List.range (tileSize sh owTile) ×ˢ
        sh.taps).map (stripValue (a.tensors .oihw) q n oh owTile)).reduceOption.map Prod.fst
    · obtain ⟨w, hw, heq⟩ := mem_map.mp hmem'
      have hget := hwritten w hw
      obtain ⟨m', hm', tap', htap', rfl⟩ := hmem w hw
      obtain ⟨rfl, rfl⟩ := stripIndex_inj htap' htap heq
      exact hget
    · -- A tap in the padding is not written: the zero of the cleared strip stays.
      have hout : ¬(sh.RowInside tap.2.1 oh ∧ sh.ColInside tap.2.2 (owTile + m)) := by
        intro hinside
        apply hmem'
        refine mem_map.mpr ⟨_, reduceOption_mem_iff.mpr (mem_map.mpr ⟨(m, tap),
          mem_product.mpr ⟨mem_range.mpr hm, htap⟩, if_pos hinside⟩), rfl⟩
      have hread : (a.tensors .oihw).inputAt q n oh (owTile + m) tap = 0 := (if_neg hout).trans hin
      have hlt := haddr m hm tap htap
      have hmin : min (tapCount sh * tileSize sh owTile) strip.length =
          tapCount sh * tileSize sh owTile := Nat.min_eq_left (by omega)
      rw [hkept _ hmem', hread, clearStrip, hmin,
        getElem?_append_left (by rwa [length_replicate]), getElem?_replicate,
        if_pos hlt]

end

/-! ### The lanes -/

section
variable {sh : ConvShape} {a : ConvArgs sh} {q : QuantBlock} {n oc oh ow m : ℕ}
  {v : Vsetvl vlmaxI32}

/-- The product of a tap, by its number. -/
def tapProduct (x : ConvTensors sh) (q : QuantBlock) : ℕ × ℕ × ℕ × ℕ → ℕ → ℤ
  | (n, oc, oh, ow), k => ((sh.taps[k]?).map fun tap =>
      x.inputAt q n oh ow tap * x.factor q oc tap).getD 0

/-- What the lanes add up to, and the bias. -/
def reducedAcc (a : ConvArgs sh) (q : QuantBlock) (v : Vsetvl vlmaxI32) (tails : Tails)
    (t : ℕ × ℕ × ℕ × ℕ) : ℤ :=
  wrap 32 ((a.tensors .oihw).bias.getD t.2.1 0 + ((List.range vlmaxI32).map
    (accumulate 32 (tails t) (tapProduct (a.tensors .oihw) q t) (v.strips 0 (tapCount sh))
      fun _ => 0)).sum)

theorem exists_tap {k : ℕ} (hk : k < tapCount sh) :
    ∃ tap ∈ sh.taps, sh.taps[k]? = some tap ∧ tapIndex sh tap = k := by
  have hlt : k < sh.taps.length := by rwa [length_taps]
  have hget : sh.taps[k]? = some sh.taps[k] := getElem?_eq_getElem hlt
  obtain ⟨hmem, hidx⟩ := getElem?_taps_iff.mp hget
  exact ⟨_, hmem, hget, hidx⟩

variable {strip : List ℤ}

theorem load_of_getElem? {l : List ℤ} {i : ℕ} {x : ℤ} (h : l[i]? = some x) :
    Extract.load l i = .ok x := by
  rw [load_of_lt (List.getElem?_eq_some_iff.mp h).1, getD_eq_getElem?_getD, h]
  rfl

/-- Where no offset is added, the factors of a filter are the bytes that follow one another. -/
theorem getElem?_weight (hq : q.filterOffset = 0) (hoc : oc < sh.OC) {tap : ℕ × ℕ × ℕ}
    (htap : tap ∈ sh.taps) : a.weight[oc * tapCount sh + tapIndex sh tap]? =
      some ((a.tensors .oihw).factor q oc tap) ∧ Fits 8 ((a.tensors .oihw).factor q oc tap) := by
  have hlt := kernelIndex_lt_size .oihw hoc (ConvShape.mem_taps.mp htap).1
    (ConvShape.mem_taps.mp htap).2.1 (ConvShape.mem_taps.mp htap).2.2
  have hfits := fits_getD a.weight_fits (weightIndex sh .oihw oc tap)
  have hread : (a.tensors .oihw).factor q oc tap = a.weight.getD (weightIndex sh .oihw oc tap) 0 := by
    rw [a.factor_tensors q hoc htap, hq, add_zero, wrap_eq_self (by decide)]
    rw [Fits] at hfits ⊢
    omega
  rw [hread, ← weightIndex_oihw]
  refine ⟨?_, hfits⟩
  rw [getD_eq_getElem?_getD]
  have hget := getElem?_eq_getElem (hlt.trans_eq a.weight_length.symm)
  exact hget.trans (by rw [show a.weight[weightIndex sh .oihw oc tap]? = _ from hget]; rfl)

/-- The product of two bytes fits its register. -/
theorem wrap_mul_of_fits {x y : ℤ} (hx : Fits 8 x) (hy : Fits 8 y) : wrap 16 (x * y) = x * y := by
  obtain ⟨hx₁, hx₂⟩ := hx
  obtain ⟨hy₁, hy₂⟩ := hy
  norm_num at hx₁ hx₂ hy₁ hy₂
  apply wrap_eq_self (by decide)
  constructor <;> norm_num <;> nlinarith

section
variable (hq : ¬ReduceFallback sh q) (hoc : oc < sh.OC)
  (hstrip : ∀ tap ∈ sh.taps, strip[m * tapCount sh + tapIndex sh tap]? = some ((a.tensors .oihw).inputAt q n oh ow tap))
include hq hoc hstrip

/-- A vector of the loop adds the products of its taps. -/
theorem reduceStep_eq {s : ℕ × ℕ} (hs : s.1 + s.2 ≤ tapCount sh) (tails : ℕ → ℕ → Bool)
    (vacc : ℕ → ℤ) :
    reduceStep a strip tails m oc vacc s = .ok (tailAgnostic s.2 (tails s.1) vacc fun i =>
      wrap 32 (vacc i + tapProduct (a.tensors .oihw) q (n, oc, oh, ow) (s.1 + i))) := by
  obtain ⟨hin, hfilter⟩ : q.inputOffset = 0 ∧ q.filterOffset = 0 := by
    rw [ReduceFallback] at hq
    omega
  have hva : vle8 strip (m * tapCount sh + s.1) s.2 = .ok ((List.range s.2).map fun i =>
      ((sh.taps[s.1 + i]?).map ((a.tensors .oihw).inputAt q n oh ow)).getD 0) := by
    apply mapM_eq_ok_map
    intro i hi
    have hlt := mem_range.mp hi
    obtain ⟨tap, htap, hget, hidx⟩ := exists_tap (show s.1 + i < tapCount sh by omega)
    rw [hget, Nat.add_assoc, ← hidx, load_of_getElem? (hstrip tap htap)]
    rfl
  have hvb : vle8 a.weight (oc * tapCount sh + s.1) s.2 = .ok ((List.range s.2).map fun i =>
      ((sh.taps[s.1 + i]?).map ((a.tensors .oihw).factor q oc)).getD 0) := by
    apply mapM_eq_ok_map
    intro i hi
    have hlt := mem_range.mp hi
    obtain ⟨tap, htap, hget, hidx⟩ := exists_tap (show s.1 + i < tapCount sh by omega)
    rw [hget, Nat.add_assoc, ← hidx, load_of_getElem? (getElem?_weight hfilter hoc htap).1]
    rfl
  rw [reduceStep, hva, hvb]
  show Except.ok _ = Except.ok _
  apply congrArg Except.ok
  funext i
  rw [vwaddWv, tailAgnostic, tailAgnostic]
  by_cases hi : i < s.2
  · obtain ⟨tap, htap, hget, hidx⟩ := exists_tap (show s.1 + i < tapCount sh by omega)
    have hprod : (vwmulVv ((List.range s.2).map fun i =>
          ((sh.taps[s.1 + i]?).map ((a.tensors .oihw).inputAt q n oh ow)).getD 0)
        ((List.range s.2).map fun i =>
          ((sh.taps[s.1 + i]?).map ((a.tensors .oihw).factor q oc)).getD 0)).getD i 0 =
        (a.tensors .oihw).inputAt q n oh ow tap * (a.tensors .oihw).factor q oc tap := by
      rw [vwmulVv, zipWith_map, zipWith_self, getD_eq_getElem?_getD,
        getElem?_map, getElem?_range hi, Option.map_some, hget]
      exact wrap_mul_of_fits (fits_inputAt hin tap) (getElem?_weight (a := a) hfilter hoc htap).2
    rw [if_pos hi, if_pos hi, hprod, tapProduct, hget]
    rfl
  · rw [if_neg hi, if_neg hi]

/-- The accumulator of an element is what the lanes add up to. -/
theorem reduceAcc_eq (tails : Tails) :
    reduceAcc a v strip (tails (n, oc, oh, ow)) m oc =
      .ok (reducedAcc a q v tails (n, oc, oh, ow)) := by
  have hloop : (v.strips 0 (tapCount sh)).foldlM
      (reduceStep a strip (tails (n, oc, oh, ow)) m oc) (fun _ => 0) =
      .ok (accumulate 32 (tails (n, oc, oh, ow)) (tapProduct (a.tensors .oihw) q (n, oc, oh, ow))
        (v.strips 0 (tapCount sh)) fun _ => 0) := by
    apply foldlM_eq_ok_foldl
    intro s hs vacc
    have hbounds := v.bounds_of_mem_strips (by decide) hs
    exact reduceStep_eq hq hoc hstrip (by omega) _ vacc
  have hbias : ∀ acc, wrap 32 acc = acc → addBias a oc acc =
      .ok (wrap 32 ((a.tensors .oihw).bias.getD oc 0 + acc)) := by
    intro acc hacc
    show _ = Except.ok (wrap 32 ((a.bias.getD (List.replicate sh.OC 0)).getD oc 0 + acc))
    rw [addBias]
    cases hb : a.bias with
    | none => simp [hoc, hacc]
    | some b =>
      show (Extract.load b oc >>= fun x => pure (wrap 32 (acc + x))) = _
      rw [load_of_lt (by rwa [a.bias_length b hb]), Option.getD_some, add_comm _ acc]
      rfl
  rw [reduceAcc, hloop]
  show addBias a oc (wrap 32 _) = _
  rw [hbias _ wrap_wrap, zero_add, wrap_add_wrap]
  rfl

end

/-- The accumulator that the reference computes is what the lanes should add up to. -/
theorem accumulator_eq_sum (t : ℕ × ℕ × ℕ × ℕ) : a.accumulator q .oihw t =
    wrap 32 ((a.tensors .oihw).bias.getD t.2.1 0 + ((List.range vlmaxI32).map
      (laneSum (tapProduct (a.tensors .oihw) q t) (v.strips 0 (tapCount sh)))).sum) := by
  have hle : ∀ s ∈ v.strips 0 (tapCount sh), s.2 ≤ vlmaxI32 :=
    fun s hs => (v.bounds_of_mem_strips (by decide) hs).2.2.2
  have hlanes := sum_laneSum (f := tapProduct (a.tensors .oihw) q t) hle
  rw [v.flatMap_strips (by decide), Nat.sub_zero, ← range_eq_range'] at hlanes
  have hproducts : (List.range (tapCount sh)).map (tapProduct (a.tensors .oihw) q t) =
      sh.taps.map fun tap => (a.tensors .oihw).inputAt q t.1 t.2.2.1 t.2.2.2 tap *
        (a.tensors .oihw).factor q t.2.1 tap := by
    symm
    apply PyList.eq_map_range (by rw [length_map, length_taps])
    intro k hk
    obtain ⟨tap, -, hget, -⟩ := exists_tap hk
    rw [getElem?_map, hget, tapProduct, hget]
    rfl
  rw [hlanes, hproducts]
  rfl

end

/-! ### The loops -/

section
variable {sh : ConvShape} {a : ConvArgs sh} {q : QuantBlock} {v : Vsetvl vlmaxI32} {tails : Tails}

/-- Every column of the output is in a tile. -/
theorem exists_tile {ow : ℕ} (h : ow < sh.OW) :
    ∃ owTile ∈ tileStarts sh, ∃ m < tileSize sh owTile, owTile + m = ow := by
  refine ⟨convMTile * (ow / convMTile), mem_map_of_mem (mem_range.mpr ?_),
    ow % convMTile, ?_, Nat.div_add_mod ow convMTile⟩
  · rw [convMTile]
    omega
  · rw [tileSize, convMTile]
    omega

variable {f : ℤ → ℤ} {post : ℤ → Except CFault ℤ} {strip : List ℤ}

/-- A tile writes its elements, and leaves the scratch memory as long as it was. -/
theorem reduceTile_eq (a : ConvArgs sh) (v : Vsetvl vlmaxI32) (tails : Tails)
    (hq : ¬ReduceFallback sh q) (hpost : ∀ acc, post acc = .ok (f acc))
    (hlen : strip.length = scratchBytes) {n : ℕ} (hn : n < sh.N) (oh owTile : ℕ) :
    ∃ strip', strip'.length = scratchBytes ∧ reduceTile a v tails post strip (n, oh, owTile) =
      .ok (strip', (List.range (tileSize sh owTile) ×ˢ List.range sh.OC).map fun p =>
        (outAddr sh (n, p.2, oh, owTile + p.1),
          f (reducedAcc a q v tails (n, p.2, oh, owTile + p.1)))) := by
  obtain ⟨strip', hrun, hlen', hstrip⟩ := buildStrip_spec a oh owTile hq hn hlen
  refine ⟨strip', hlen', ?_⟩
  have hwrites : ((List.range (tileSize sh owTile) ×ˢ List.range sh.OC).mapM fun p => do
      let acc ← reduceAcc a v strip' (tails (n, p.2, oh, owTile + p.1)) p.1 p.2
      let x ← post acc
      return (sh.outputAddr n p.2 oh (owTile + p.1), x)) = .ok
      ((List.range (tileSize sh owTile) ×ˢ List.range sh.OC).map fun p =>
        (outAddr sh (n, p.2, oh, owTile + p.1),
          f (reducedAcc a q v tails (n, p.2, oh, owTile + p.1)))) := by
    apply mapM_eq_ok_map
    intro p hp
    obtain ⟨hm, hoc⟩ := mem_product.mp hp
    rw [reduceAcc_eq hq (mem_range.mp hoc) (hstrip p.1 (mem_range.mp hm))]
    show (post _ >>= _) = _
    rw [hpost]
    rfl
  rw [reduceTile, hrun]
  show ((List.mapM _ _ : Except CFault _) >>= _) = _
  rw [hwrites]
  rfl

/-- Where the scratch memory is used, the kernel computes what the lanes add up to. -/
theorem computes_reduceLoops (hq : ¬ReduceFallback sh q) (hpost : ∀ acc, post acc = .ok (f acc))
    (hlen : strip.length = scratchBytes) :
    Computes sh (fun t => f (reducedAcc a q v tails t)) (reduceLoops a q v tails strip post) := by
  have hloops : ∃ s, (List.range sh.N ×ˢ List.range sh.OH ×ˢ tileStarts sh).foldlM
      (fun (s : List ℤ × List (ℕ × ℤ)) tile => do
        let r ← reduceTile a v tails post s.1 tile
        return (r.1, s.2 ++ r.2)) (strip, []) = .ok s ∧ s.1.length = scratchBytes ∧
      (∀ w ∈ s.2, ∃ t ∈ sh.outputs, w = (outAddr sh t, f (reducedAcc a q v tails t))) ∧
      ∀ n oh owTile, (n, oh, owTile) ∈ List.range sh.N ×ˢ List.range sh.OH ×ˢ tileStarts sh →
        ∀ m < tileSize sh owTile, ∀ oc < sh.OC, (outAddr sh (n, oc, oh, owTile + m),
          f (reducedAcc a q v tails (n, oc, oh, owTile + m))) ∈ s.2 := by
    refine exists_foldlM_eq_ok
      (P := fun done (s : List ℤ × List (ℕ × ℤ)) => s.1.length = scratchBytes ∧
        (∀ w ∈ s.2, ∃ t ∈ sh.outputs, w = (outAddr sh t, f (reducedAcc a q v tails t))) ∧
        ∀ n oh owTile, (n, oh, owTile) ∈ done → ∀ m < tileSize sh owTile, ∀ oc < sh.OC,
          (outAddr sh (n, oc, oh, owTile + m),
            f (reducedAcc a q v tails (n, oc, oh, owTile + m))) ∈ s.2)
      ?_ ⟨hlen, by simp, by simp⟩
    rintro done ⟨n, oh, owTile⟩ rest s hsplit ⟨hlen', hwrites, hall⟩
    have hmem : (n, oh, owTile) ∈ List.range sh.N ×ˢ List.range sh.OH ×ˢ tileStarts sh :=
      hsplit ▸ by simp
    obtain ⟨hn, hrest⟩ := mem_product.mp hmem
    obtain ⟨hoh, htile⟩ := mem_product.mp hrest
    obtain ⟨strip', hlen'', htileRun⟩ := reduceTile_eq a v tails hq hpost hlen'
      (mem_range.mp hn) oh owTile
    refine ⟨_, by rw [htileRun]; rfl, hlen'', ?_, ?_⟩
    · intro w hw
      rcases mem_append.mp hw with hw | hw
      · exact hwrites w hw
      · obtain ⟨p, hp, rfl⟩ := mem_map.mp hw
        obtain ⟨hm, hoc⟩ := mem_product.mp hp
        have hlt := mem_range.mp hm
        rw [tileSize] at hlt
        exact ⟨_, ConvShape.mem_outputs.mpr ⟨mem_range.mp hn, mem_range.mp hoc,
          mem_range.mp hoh, by omega⟩, rfl⟩
    · intro n' oh' owTile' hdone m hm oc hoc
      rcases mem_append.mp hdone with hdone | hdone
      · exact mem_append_left _ (hall n' oh' owTile' hdone m hm oc hoc)
      · cases mem_singleton.mp hdone
        apply mem_append_right
        exact mem_map.mpr ⟨(m, oc), mem_product.mpr ⟨mem_range.mpr hm, mem_range.mpr hoc⟩, rfl⟩
  obtain ⟨s, hrun, -, hwrites, hall⟩ := hloops
  refine ⟨s.2, ?_, hwrites, ?_⟩
  · rw [reduceLoops, if_neg hq, hrun]
    rfl
  · rintro ⟨n, oc, oh, ow⟩ ht
    obtain ⟨hn, hoc, hoh, how⟩ := ConvShape.mem_outputs.mp ht
    obtain ⟨owTile, htile, m, hm, rfl⟩ := exists_tile how
    exact hall n oh owTile (mem_product.mpr ⟨mem_range.mpr hn,
      mem_product.mpr ⟨mem_range.mpr hoh, htile⟩⟩) m hm oc hoc

end

/-! ### Exactness -/

section
variable {sh : ConvShape} (a : ConvArgs sh) (q : QuantBlock) (v : Vsetvl vlmaxI32)

/-- Each lane that the last taps do not reach has added up to minus one, which is what an overwritten
lane holds. -/
def LeavesOnes (t : ℕ × ℕ × ℕ × ℕ) : Prop :=
  ∀ i < vlmaxI32, (∃ s ∈ v.strips 0 (tapCount sh), s.2 ≤ i) →
    wrap 32 (laneSum (tapProduct (a.tensors .oihw) q t) (v.strips 0 (tapCount sh)) i) = -1

variable {a q v} {tails : Tails} {t : ℕ × ℕ × ℕ × ℕ}

/-- A lane that may be overwritten holds its sum anyway. -/
theorem reducedAcc_of_leavesOnes (h : LeavesOnes a q v t) :
    reducedAcc a q v tails t = a.accumulator q .oihw t := by
  have hlane : ∀ i ∈ List.range vlmaxI32, accumulate 32 (tails t)
      (tapProduct (a.tensors .oihw) q t) (v.strips 0 (tapCount sh)) (fun _ => 0) i =
      wrap 32 (laneSum (tapProduct (a.tensors .oihw) q t) (v.strips 0 (tapCount sh)) i) := by
    intro i hi
    rw [accumulate_lane v.pairwise_strips (by decide), zero_add]
    split_ifs with hover
    · obtain ⟨s, hs, hle, -⟩ := hover
      exact (h i (mem_range.mp hi) ⟨s, hs, hle⟩).symm
    · rfl
  rw [reducedAcc, map_congr_left hlane, accumulator_eq_sum (v := v)]
  exact wrap_sum_wrap _ _ _

/-- If an accumulator is right even where every tail is overwritten in one lane, this lane holds
what it is overwritten with. -/
theorem leavesOnes_of_reducedAcc
    (h : ∀ lane, reducedAcc a q v (fun _ _ i => i == lane) t = a.accumulator q .oihw t) :
    LeavesOnes a q v t := by
  intro lane hlane hstale
  have hsum := h lane
  have hlanes : ∀ i, accumulate 32 (fun _ j => j == lane) (tapProduct (a.tensors .oihw) q t)
      (v.strips 0 (tapCount sh)) (fun _ => 0) i = wrap 32 (if i = lane then -1 else
        laneSum (tapProduct (a.tensors .oihw) q t) (v.strips 0 (tapCount sh)) i) := by
    intro i
    rw [accumulate_lane v.pairwise_strips (by decide), zero_add]
    by_cases hi : i = lane
    · subst hi
      have hover : Overwritten (fun _ j => j == i) (v.strips 0 (tapCount sh)) i := by
        obtain ⟨s, hs, hle⟩ := hstale
        exact ⟨s, hs, hle, beq_self_eq_true i⟩
      rw [if_pos hover, if_pos rfl]
      decide
    · have hkept : ¬Overwritten (fun _ j => j == lane) (v.strips 0 (tapCount sh)) i := by
        rintro ⟨s, -, -, heq⟩
        exact hi (beq_iff_eq.mp heq)
      rw [if_neg hkept, if_neg hi]
  -- The sums differ by what the lane loses and what it is overwritten with.
  have hdiff : ((List.range vlmaxI32).map fun i => if i = lane then -1 else
        laneSum (tapProduct (a.tensors .oihw) q t) (v.strips 0 (tapCount sh)) i).sum =
      ((List.range vlmaxI32).map
        (laneSum (tapProduct (a.tensors .oihw) q t) (v.strips 0 (tapCount sh)))).sum +
        (-1 - laneSum (tapProduct (a.tensors .oihw) q t) (v.strips 0 (tapCount sh)) lane) := by
    have hlost := PyList.sum_map_ite_of_nodup (nodup_range (n := vlmaxI32))
      (fun i => -1 - laneSum (tapProduct (a.tensors .oihw) q t) (v.strips 0 (tapCount sh)) i) lane
    rw [if_pos (mem_range.mpr hlane)] at hlost
    rw [← hlost, ← sum_map_add]
    congr 1
    apply map_congr_left
    intro i _
    by_cases hi : i = lane <;> simp [hi]
  rw [reducedAcc, map_congr_left fun i _ => hlanes i, wrap_sum_wrap, hdiff,
    accumulator_eq_sum (v := v)] at hsum
  generalize laneSum (tapProduct (a.tensors .oihw) q t) (v.strips 0 (tapCount sh)) lane = x at *
  generalize ((List.range vlmaxI32).map
    (laneSum (tapProduct (a.tensors .oihw) q t) (v.strips 0 (tapCount sh)))).sum = y at *
  generalize (a.tensors .oihw).bias.getD t.2.1 0 = b at *
  calc wrap 32 x = wrap 32 (wrap 32 (b + y) + (x - b - y)) := by
        rw [wrap_wrap_add]
        congr 1
        ring
    _ = wrap 32 (wrap 32 (b + (y + (-1 - x))) + (x - b - y)) := by rw [hsum]
    _ = wrap 32 (-1) := by
        rw [wrap_wrap_add]
        congr 1
        ring
    _ = -1 := by decide

end

/-- The scratch memory, as an earlier call has left it. -/
abbrev Scratch : Type := {strip : List ℤ // strip.length = scratchBytes}

/-- A vector unit that takes as many elements as it can. -/
def longestVectors : Vsetvl vlmaxI32 where
  vl avl := min avl vlmaxI32
  legal avl := by
    constructor <;> omega

/-- The buffers of a convolution of one pixel, all of them zero. -/
def zeroArgs : ConvArgs pointShape where
  input := largestBias.input
  weight := largestBias.weight
  bias := none
  input_length := largestBias.input_length
  weight_length := largestBias.weight_length
  bias_length := by decide
  input_fits := largestBias.input_fits
  weight_fits := largestBias.weight_fits
  bias_fits := by decide

/-- A requantisation that keeps small values. -/
def identityRequant : RequantParams := ⟨2 ^ 31 - 1, 0, by decide, by decide, by decide⟩

end ModelBlaster.Kernels

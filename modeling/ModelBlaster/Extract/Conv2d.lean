import ModelBlaster.Extract.Requantize
import ModelBlaster.Library.Fallible

/-!
# The int8 convolution

`conv2d_s8` as the golden simulator evaluates it, row by row in NumPy, and as its kernel does,
element by element in C. Loops are given by the tuples that their variables go through, and
addresses are exact.

## Main definitions

* `ConvShape`, `ConvTensors`: what the op reads;
* `simConv2dS8`: `_sim_conv2d_s8`;
* `kernelConv2dS8`: the writes of `kernel_conv2d_s8`;
* `ConvTensors.accumulator`: the sum that both requantise.

## Main results

* `simPlane_eq`, `kernelAcc_eq`: the accumulators of both are this sum;
* `simConv2dS8_eq_kernel_iff`: when the arrays are the same.
-/

namespace ModelBlaster.Extract

open Rounding TwosComplement List Fallible

/-! ### Operands -/

/-- The shape of a convolution with an output. -/
structure ConvShape where
  (N IC IH IW OC KH KW SH SW PH PW : ℕ)
  n_pos : 0 < N
  oc_pos : 0 < OC
  sh_pos : 0 < SH
  sw_pos : 0 < SW
  kh_le : KH ≤ IH + 2 * PH
  kw_le : KW ≤ IW + 2 * PW

namespace ConvShape

variable (sh : ConvShape)

/-- The height of the output. -/
def OH : ℕ := (sh.IH + 2 * sh.PH - sh.KH) / sh.SH + 1

/-- The width of the output. -/
def OW : ℕ := (sh.IW + 2 * sh.PW - sh.KW) / sh.SW + 1

/-- The row of the input that a row of the filter meets. -/
def ih (kh oh : ℕ) : ℤ := oh * sh.SH + (-sh.PH + kh)

/-- The column of the input that a column of the filter meets. -/
def iw (kw ow : ℕ) : ℤ := ow * sh.SW + (-sh.PW + kw)

/-- The taps of the filter. -/
def taps : List (ℕ × ℕ × ℕ) := List.range sh.IC ×ˢ List.range sh.KH ×ˢ List.range sh.KW

/-- The elements of the output. -/
def outputs : List (ℕ × ℕ × ℕ × ℕ) :=
  List.range sh.N ×ˢ List.range sh.OC ×ˢ List.range sh.OH ×ˢ List.range sh.OW

/-- The address of an element of the output. -/
def outputAddr (n oc oh ow : ℕ) : ℕ := ((n * sh.OC + oc) * sh.OH + oh) * sh.OW + ow

/-- The address of an element of the filter. -/
def weightAddr (oc ic kh kw : ℕ) : ℕ := ((oc * sh.IC + ic) * sh.KH + kh) * sh.KW + kw

/-- The row is in the image. -/
def RowInside (kh oh : ℕ) : Prop := 0 ≤ sh.ih kh oh ∧ sh.ih kh oh < sh.IH

/-- The column is in the image. -/
def ColInside (kw ow : ℕ) : Prop := 0 ≤ sh.iw kw ow ∧ sh.iw kw ow < sh.IW

instance (kh oh : ℕ) : Decidable (sh.RowInside kh oh) := inferInstanceAs (Decidable (_ ∧ _))

instance (kw ow : ℕ) : Decidable (sh.ColInside kw ow) := inferInstanceAs (Decidable (_ ∧ _))

end ConvShape

/-- The tensors of a convolution: `int8` in the layouts NCHW and OIHW, and an `int32` bias. -/
structure ConvTensors (sh : ConvShape) where
  input : List ℤ
  weight : List ℤ
  bias : List ℤ
  input_length : input.length = sh.N * sh.IC * sh.IH * sh.IW
  weight_length : weight.length = sh.OC * sh.IC * sh.KH * sh.KW
  bias_length : bias.length = sh.OC
  input_fits : ∀ v ∈ input, Fits 8 v
  weight_fits : ∀ v ∈ weight, Fits 8 v
  bias_fits : ∀ v ∈ bias, Fits 32 v

/-- An index along an axis in NumPy: negative ones count from the end. -/
def pyIndex (dim : ℕ) (i : ℤ) : Except PyError ℕ :=
  if 0 ≤ i ∧ i < dim then .ok i.toNat
  else if -dim ≤ i ∧ i < 0 then .ok (i + dim).toNat
  else .error .indexError

/-- A read of a kernel. -/
def load (a : List ℤ) (addr : ℤ) : Except CFault ℤ :=
  if 0 ≤ addr then
    match a[addr.toNat]? with
    | some v => .ok v
    | none => .error .undefinedBehaviour
  else
    .error .undefinedBehaviour

namespace ConvTensors

variable {sh : ConvShape} (x : ConvTensors sh)

/-- `in_4d[n, ic, ih, iw]` -/
def in4d (n ic : ℕ) (ih iw : ℤ) : Except PyError ℤ := do
  let h ← pyIndex sh.IH ih
  let w ← pyIndex sh.IW iw
  return x.input.getD (((n * sh.IC + ic) * sh.IH + h) * sh.IW + w) 0

/-- `w_q[oc, ic, kh, kw]` -/
def weightAt (oc ic kh kw : ℕ) : ℤ := x.weight.getD (sh.weightAddr oc ic kh kw) 0

end ConvTensors

/-! ### The simulator -/

/-- `out[n, oc, oh] += in_row * w_v` -/
def addRow (acc row : List ℤ) (w : ℤ) : List ℤ :=
  zipWith (fun a v => wrap 32 (a + wrap 32 (v * w))) acc row

section
variable {sh : ConvShape} (x : ConvTensors sh) (q : QuantBlock)

/-- The row of the input that a tap meets in the output row `oh`, with its padding. -/
def simInRow (n ic kh kw oh : ℕ) : Except PyError (List ℤ) :=
  if sh.ih kh oh < 0 ∨ sh.IH ≤ sh.ih kh oh then
    .ok (List.replicate sh.OW q.inputOffset)
  else
    (List.range sh.OW).mapM fun ow =>
      if sh.iw kw ow < 0 ∨ sh.IW ≤ sh.iw kw ow then
        .ok q.inputOffset
      else do
        let v ← x.in4d n ic (sh.ih kh oh) (sh.iw kw ow)
        return wrap 32 (v + q.inputOffset)

/-- A pass of the inner loops of `_sim_conv2d_s8`. -/
def simStep (n oc : ℕ) (plane : ℕ → List ℤ) : (ℕ × ℕ × ℕ) × ℕ → Except PyError (ℕ → List ℤ)
  | ((ic, kh, kw), oh) => do
    let inRow ← simInRow x q n ic kh kw oh
    let wV := wrap 32 (x.weightAt oc ic kh kw + q.filterOffset)
    return Function.update plane oh (addRow (plane oh) inRow wV)

/-- `out[n, oc]`, by rows. -/
def simPlane (n oc : ℕ) : Except PyError (ℕ → List ℤ) :=
  (sh.taps ×ˢ List.range sh.OH).foldlM (simStep x q n oc)
    fun _ => List.replicate sh.OW (x.bias.getD oc 0)

/-- `_sim_conv2d_s8` -/
def simConv2dS8 (multiplier shift : ℤ) : Except PyError (List ℤ) := do
  let planes ← (List.range sh.N ×ˢ List.range sh.OC).mapM fun p => do
    let plane ← simPlane x q p.1 p.2
    return (List.range sh.OH).flatMap plane
  planes.flatten.mapM (q.simElement multiplier shift)

/-! ### The kernel -/

/-- The product that a tap contributes to an element of the output. -/
def kernelTap (n oc oh ow : ℕ) : ℕ × ℕ × ℕ → Except CFault ℤ
  | (ic, kh, kw) => do
    let ih := sh.ih kh oh
    let iw := sh.iw kw ow
    let inV ←
      if ih < 0 ∨ sh.IH ≤ ih ∨ iw < 0 ∨ sh.IW ≤ iw then
        pure q.inputOffset
      else do
        let v ← load x.input (((n * sh.IC + ic : ℕ) * sh.IH + ih) * sh.IW + iw)
        pure (wrap 32 (v + q.inputOffset))
    let w ← load x.weight (sh.weightAddr oc ic kh kw)
    return wrap 32 (inV * wrap 32 (w + q.filterOffset))

/-- The accumulator of an element of the output. -/
def kernelAcc (n oc oh ow : ℕ) : Except CFault ℤ := do
  let bias ← load x.bias oc
  sh.taps.foldlM (fun acc tap => do
    let v ← kernelTap x q n oc oh ow tap
    return wrap 32 (acc + v)) bias

/-- The writes of `kernel_conv2d_s8`. -/
def kernelConv2dS8 (multiplier shift : ℤ) : Except CFault (List (ℕ × ℤ)) :=
  sh.outputs.mapM fun
    | (n, oc, oh, ow) => do
      let acc ← kernelAcc x q n oc oh ow
      let v ← q.kernelElement multiplier shift acc
      return (sh.outputAddr n oc oh ow, v)

/-! ### The accumulators -/

/-- The input that a tap meets, with its padding. -/
def ConvTensors.inputAt (n oh ow : ℕ) : ℕ × ℕ × ℕ → ℤ
  | (ic, kh, kw) =>
    if sh.RowInside kh oh ∧ sh.ColInside kw ow then
      wrap 32 (x.input.getD (((n * sh.IC + ic) * sh.IH + (sh.ih kh oh).toNat) * sh.IW +
        (sh.iw kw ow).toNat) 0 + q.inputOffset)
    else
      q.inputOffset

/-- The factor of a tap. -/
def ConvTensors.factor (oc : ℕ) : ℕ × ℕ × ℕ → ℤ
  | (ic, kh, kw) => wrap 32 (x.weightAt oc ic kh kw + q.filterOffset)

/-- The sum of an element of the output, over the taps of a list. -/
def ConvTensors.sum (n oc oh ow : ℕ) (taps : List (ℕ × ℕ × ℕ)) : ℤ :=
  x.bias.getD oc 0 + (taps.map fun tap => x.inputAt q n oh ow tap * x.factor q oc tap).sum

/-- No partial sum of an accumulator leaves 32 bits. -/
def ConvTensors.NoOverflow : Prop :=
  ∀ n < sh.N, ∀ oc < sh.OC, ∀ oh < sh.OH, ∀ ow < sh.OW, ∀ k ≤ sh.taps.length,
    Fits 32 (x.sum q n oc oh ow (sh.taps.take k))

/-- The accumulator of an element of the output. -/
def ConvTensors.accumulator (n oc oh ow : ℕ) : ℤ := wrap 32 (x.sum q n oc oh ow sh.taps)

end

/-! ### Accumulating row by row -/

section Rows

variable {OH OW : ℕ} {b : ℤ} {val : (ℕ × ℕ × ℕ) × ℕ → ℕ → ℤ}
  {done : List ((ℕ × ℕ × ℕ) × ℕ)} {plane : ℕ → List ℤ}

/-- The rows have taken in what the passes `done` contribute: `val t ow` in column `ow` by the
pass `t`. -/
def Accumulated (OH OW : ℕ) (b : ℤ) (val : (ℕ × ℕ × ℕ) × ℕ → ℕ → ℤ)
    (done : List ((ℕ × ℕ × ℕ) × ℕ)) (plane : ℕ → List ℤ) : Prop :=
  ∀ oh < OH, plane oh = (List.range OW).map fun ow =>
    wrap 32 (b + (done.map fun t => if t.2 = oh then val t ow else 0).sum)

theorem Accumulated.init (hb : Fits 32 b) :
    Accumulated OH OW b val [] fun _ => List.replicate OW b := by
  intro oh _
  simp [wrap_eq_self (by decide : 0 < 32) hb]

/-- A row takes in the contribution of a pass. -/
theorem addRow_map_range (f r : ℕ → ℤ) (w : ℤ) :
    addRow ((List.range OW).map fun ow => wrap 32 (f ow)) ((List.range OW).map r) w =
      (List.range OW).map fun ow => wrap 32 (f ow + r ow * w) := by
  rw [addRow, zipWith_map, zipWith_self]
  apply map_congr_left
  intro ow _
  rw [wrap_wrap_add, wrap_add_wrap]

theorem Accumulated.step (h : Accumulated OH OW b val done plane) {t : (ℕ × ℕ × ℕ) × ℕ} {r : ℕ → ℤ}
    {w : ℤ} (hval : ∀ ow < OW, r ow * w = val t ow) :
    Accumulated OH OW b val (done ++ [t])
      (Function.update plane t.2 (addRow (plane t.2) ((List.range OW).map r) w)) := by
  intro oh hoh
  by_cases heq : oh = t.2
  · subst heq
    rw [Function.update_self, h _ hoh, addRow_map_range]
    apply map_congr_left
    intro ow how
    rw [map_append, sum_append, map_singleton, sum_singleton, if_pos rfl,
      hval ow (mem_range.mp how), add_assoc]
  · rw [Function.update_of_ne heq, h oh hoh]
    apply map_congr_left
    intro ow _
    rw [map_append, sum_append, map_singleton, sum_singleton, if_neg (Ne.symm heq), add_zero]

/-- After all passes, a row holds the contributions of the taps. -/
theorem Accumulated.final {taps : List (ℕ × ℕ × ℕ)}
    (h : Accumulated OH OW b val (taps ×ˢ List.range OH) plane) {oh : ℕ} (hoh : oh < OH) :
    plane oh = (List.range OW).map fun ow =>
      wrap 32 (b + (taps.map fun tap => val (tap, oh) ow).sum) := by
  rw [h oh hoh]
  apply map_congr_left
  intro ow _
  congr 2
  rw [PyList.map_product, flatMap_def, sum_flatten, map_map]
  congr 1
  apply map_congr_left
  intro tap _
  -- Only one pass of the loop over the rows contributes to a row.
  show ((List.range OH).map fun i => if i = oh then val (tap, i) ow else 0).sum = _
  rw [PyList.sum_map_ite_of_nodup nodup_range, if_pos (mem_range.mpr hoh)]

end Rows

section
variable {sh : ConvShape} (x : ConvTensors sh) (q : QuantBlock) {n oc oh ow : ℕ}

/-! ### The accumulators of the simulator -/

variable {kh ic kw : ℕ}

theorem ConvShape.mem_taps :
    (ic, kh, kw) ∈ sh.taps ↔ ic < sh.IC ∧ kh < sh.KH ∧ kw < sh.KW := by
  simp [ConvShape.taps]

theorem ConvShape.mem_outputs :
    (n, oc, oh, ow) ∈ sh.outputs ↔ n < sh.N ∧ oc < sh.OC ∧ oh < sh.OH ∧ ow < sh.OW := by
  simp [ConvShape.outputs]

theorem ConvTensors.fits_bias (oc : ℕ) : Fits 32 (x.bias.getD oc 0) := by
  rw [getD_eq_getElem?_getD]
  by_cases hoc : oc < x.bias.length
  · rw [getElem?_eq_getElem hoc]
    exact x.bias_fits _ (getElem_mem hoc)
  · rw [getElem?_eq_none (by omega)]
    decide

theorem pyIndex_of_inside {dim : ℕ} {i : ℤ} (h : 0 ≤ i ∧ i < dim) :
    pyIndex dim i = .ok i.toNat := if_pos h

/-- A tap within the image is read where it is. -/
theorem ConvTensors.in4d_of_inside (hrow : sh.RowInside kh oh) (hcol : sh.ColInside kw ow) :
    x.in4d n ic (sh.ih kh oh) (sh.iw kw ow) = .ok (x.input.getD
      (((n * sh.IC + ic) * sh.IH + (sh.ih kh oh).toNat) * sh.IW + (sh.iw kw ow).toNat) 0) := by
  rw [in4d, pyIndex_of_inside hrow, pyIndex_of_inside hcol]
  rfl

/-- The rows that `_sim_conv2d_s8` reads are those of the padded input. -/
theorem simInRow_eq (ic kh kw oh : ℕ) : simInRow x q n ic kh kw oh =
    .ok ((List.range sh.OW).map fun ow => x.inputAt q n oh ow (ic, kh, kw)) := by
  rw [simInRow]
  by_cases hrow : sh.RowInside kh oh
  · obtain ⟨hlo, hhi⟩ := hrow
    rw [if_neg (by omega)]
    apply mapM_eq_ok_map
    intro ow _
    by_cases hcol : sh.ColInside kw ow
    · obtain ⟨hlo', hhi'⟩ := hcol
      rw [if_neg (by omega), x.in4d_of_inside ⟨hlo, hhi⟩ ⟨hlo', hhi'⟩]
      show Except.ok _ = _
      rw [ConvTensors.inputAt, if_pos ⟨⟨hlo, hhi⟩, hlo', hhi'⟩]
    · have hout : sh.iw kw ow < 0 ∨ sh.IW ≤ sh.iw kw ow := by
        rw [ConvShape.ColInside] at hcol
        omega
      rw [if_pos hout, ConvTensors.inputAt, if_neg fun h => hcol h.2]
  · have hout : sh.ih kh oh < 0 ∨ sh.IH ≤ sh.ih kh oh := by
      rw [ConvShape.RowInside] at hrow
      omega
    rw [if_pos hout]
    congr 1
    symm
    apply eq_replicate_iff.mpr
    refine ⟨by simp, fun v hv => ?_⟩
    obtain ⟨ow, -, rfl⟩ := mem_map.mp hv
    rw [ConvTensors.inputAt, if_neg fun h => hrow h.1]

/-- A pass of the loops adds what its tap contributes to its row. -/
theorem simStep_accumulated {done : List ((ℕ × ℕ × ℕ) × ℕ)} {plane : ℕ → List ℤ}
    (h : Accumulated sh.OH sh.OW (x.bias.getD oc 0)
      (fun t ow => x.inputAt q n t.2 ow t.1 * x.factor q oc t.1) done plane) (t : (ℕ × ℕ × ℕ) × ℕ) :
    ∃ plane', simStep x q n oc plane t = .ok plane' ∧
      Accumulated sh.OH sh.OW (x.bias.getD oc 0)
        (fun t ow => x.inputAt q n t.2 ow t.1 * x.factor q oc t.1) (done ++ [t]) plane' := by
  refine ⟨_, ?_, h.step fun ow _ => rfl⟩
  rw [simStep, simInRow_eq]
  rfl

/-- The rows of the simulator end up with the accumulators. -/
theorem simPlane_eq (n oc : ℕ) : ∃ plane, simPlane x q n oc = .ok plane ∧
    ∀ oh < sh.OH, plane oh = (List.range sh.OW).map fun ow => x.accumulator q n oc oh ow := by
  obtain ⟨plane, hrun, hacc⟩ := exists_foldlM_eq_ok
    (P := Accumulated sh.OH sh.OW (x.bias.getD oc 0) fun t ow =>
      x.inputAt q n t.2 ow t.1 * x.factor q oc t.1)
    (fun done t rest plane _ hplane => simStep_accumulated x q hplane t)
    (Accumulated.init (x.fits_bias oc))
  exact ⟨plane, hrun, fun oh hoh => hacc.final hoh⟩

/-! ### The accumulators of the kernel -/

/-- An address within the array can be read. -/
theorem load_of_lt {a : List ℤ} {i : ℕ} (h : i < a.length) : load a i = .ok (a.getD i 0) := by
  rw [load, if_pos (Int.natCast_nonneg i), Int.toNat_natCast, getElem?_eq_getElem h,
    getD_eq_getElem?_getD, getElem?_eq_getElem h]
  rfl

/-- A tap within the image is within the tensor. -/
theorem ConvTensors.load_input (hn : n < sh.N) (hic : ic < sh.IC) (hrow : sh.RowInside kh oh)
    (hcol : sh.ColInside kw ow) :
    load x.input (((n * sh.IC + ic : ℕ) * sh.IH + sh.ih kh oh) * sh.IW + sh.iw kw ow) =
      .ok (x.input.getD
        (((n * sh.IC + ic) * sh.IH + (sh.ih kh oh).toNat) * sh.IW + (sh.iw kw ow).toNat) 0) := by
  obtain ⟨h, hh⟩ := Int.eq_ofNat_of_zero_le hrow.1
  obtain ⟨w, hw⟩ := Int.eq_ofNat_of_zero_le hcol.1
  have hh' : h < sh.IH := by
    have hlt := hrow.2
    omega
  have hw' : w < sh.IW := by
    have hlt := hcol.2
    omega
  rw [hh, hw, Int.toNat_natCast, Int.toNat_natCast, ← load_of_lt]
  · congr 1
  · rw [x.input_length]
    exact PyList.mul_add_lt (PyList.mul_add_lt (PyList.mul_add_lt hn hic) hh') hw'

theorem ConvTensors.load_weight (hoc : oc < sh.OC) (hic : ic < sh.IC) (hkh : kh < sh.KH)
    (hkw : kw < sh.KW) :
    load x.weight (sh.weightAddr oc ic kh kw) = .ok (x.weightAt oc ic kh kw) := by
  apply load_of_lt
  rw [x.weight_length]
  exact PyList.mul_add_lt (PyList.mul_add_lt (PyList.mul_add_lt hoc hic) hkh) hkw

/-- What a tap contributes is the product of its input and its factor. -/
theorem kernelTap_eq (hn : n < sh.N) (hoc : oc < sh.OC) {tap : ℕ × ℕ × ℕ} (htap : tap ∈ sh.taps) :
    kernelTap x q n oc oh ow tap = .ok (wrap 32 (x.inputAt q n oh ow tap * x.factor q oc tap)) := by
  obtain ⟨ic, kh, kw⟩ := tap
  obtain ⟨hic, hkh, hkw⟩ := ConvShape.mem_taps.mp htap
  rw [kernelTap, x.load_weight hoc hic hkh hkw]
  by_cases hin : sh.RowInside kh oh ∧ sh.ColInside kw ow
  · obtain ⟨⟨hlo, hhi⟩, hlo', hhi'⟩ := hin
    have hread : x.inputAt q n oh ow (ic, kh, kw) = _ := if_pos ⟨⟨hlo, hhi⟩, hlo', hhi'⟩
    rw [x.load_input hn hic ⟨hlo, hhi⟩ ⟨hlo', hhi'⟩, hread, if_neg (by omega)]
    rfl
  · have hread : x.inputAt q n oh ow (ic, kh, kw) = _ := if_neg hin
    rw [ConvShape.RowInside, ConvShape.ColInside] at hin
    rw [hread, if_pos (by omega)]
    rfl

/-- The accumulator of the kernel. -/
theorem kernelAcc_eq (hn : n < sh.N) (hoc : oc < sh.OC) :
    kernelAcc x q n oc oh ow = .ok (x.accumulator q n oc oh ow) := by
  have hbias : load x.bias oc = .ok (x.bias.getD oc 0) := load_of_lt (by rwa [x.bias_length])
  have hsum := foldl_wrap_add (fun tap => wrap 32 (x.inputAt q n oh ow tap * x.factor q oc tap))
    sh.taps (wrap_eq_self (by decide : 0 < 32) (x.fits_bias oc))
  have hterms : wrap 32 (x.bias.getD oc 0 + (sh.taps.map fun tap =>
      wrap 32 (x.inputAt q n oh ow tap * x.factor q oc tap)).sum) =
        x.accumulator q n oc oh ow := wrap_sum_wrap _ _ _
  rw [kernelAcc, hbias, ← hterms, ← hsum]
  apply foldlM_eq_ok_foldl
  intro tap htap acc
  rw [kernelTap_eq x q hn hoc htap]
  rfl

end

/-! ### Golden and device -/

variable {τ : Type} {addr : τ → ℕ} {l : List τ}

/-- Elements that are stored one after the other. -/
theorem storeFrom_of_addr (haddr : l.map addr = List.range l.length) (f : τ → ℤ) :
    (l.map fun t => (addr t, f t)) = storeFrom 0 (l.map f) := by
  apply List.ext_getElem
  · simp [storeFrom]
  · intro i hi hi'
    have hlen : i < l.length := by simpa using hi
    have hat : addr l[i] = i := by
      have hget := congrArg (fun r => r[i]?) haddr
      simpa [hlen] using hget
    simpa [storeFrom] using hat

theorem length_storeFrom (addr : ℕ) (l : List ℤ) : (storeFrom addr l).length = l.length := by
  simp [storeFrom]

/-- An array and the writes of a kernel agree iff all elements do. -/
theorem mapM_eq_storeFrom_iff (haddr : l.map addr = List.range l.length) {f : τ → Except PyError ℤ}
    {g : τ → Except CFault ℤ} :
    (∃ out, l.mapM f = .ok out ∧
      (l.mapM fun t => do let v ← g t; return (addr t, v)) = .ok (storeFrom 0 out)) ↔
      ∀ t ∈ l, ∃ v, f t = .ok v ∧ g t = .ok v := by
  constructor
  · rintro ⟨out, hsim, hkernel⟩ t ht
    obtain ⟨i, hi, rfl⟩ := mem_iff_getElem.mp ht
    have hsims := mapM_eq_ok_iff.mp hsim
    have hwrites := mapM_eq_ok_iff.mp hkernel
    have hi' : i < out.length := hsims.length_eq ▸ hi
    refine ⟨out[i], hsims.get hi hi', ?_⟩
    have hwrite := hwrites.get hi (by rw [length_storeFrom]; exact hi')
    obtain ⟨v, hv, heq⟩ := bind_eq_ok_iff.mp hwrite
    have hvalue : v = out[i] := by
      have hsnd := congrArg Prod.snd (Except.ok.inj heq)
      simpa [storeFrom] using hsnd
    exact hvalue ▸ hv
  · intro h
    choose! value hvalue using h
    refine ⟨l.map value, mapM_eq_ok_map fun t ht => (hvalue t ht).1, ?_⟩
    rw [← storeFrom_of_addr haddr]
    apply mapM_eq_ok_map
    intro t ht
    rw [(hvalue t ht).2]
    rfl

/-- The output is written in memory order. -/
theorem ConvShape.map_outputAddr (sh : ConvShape) :
    (sh.outputs.map fun | (n, oc, oh, ow) => sh.outputAddr n oc oh ow) =
      List.range sh.outputs.length := by
  have hlen : sh.outputs.length = sh.N * sh.OC * sh.OH * sh.OW := by
    simp [outputs, length_product, Nat.mul_assoc]
  rw [hlen, ← map_id (List.range _), PyList.map_range_mul, PyList.flatMap_range_mul,
    PyList.flatMap_range_mul]
  simp only [outputs, PyList.map_product]
  rfl

section
variable {sh : ConvShape} (x : ConvTensors sh) (q : QuantBlock) (multiplier shift : ℤ)

/-- The simulator requantises the accumulators one by one. -/
theorem simConv2dS8_eq : simConv2dS8 x q multiplier shift = sh.outputs.mapM fun t =>
    q.simElement multiplier shift (x.accumulator q t.1 t.2.1 t.2.2.1 t.2.2.2) := by
  have hplanes : ((List.range sh.N ×ˢ List.range sh.OC).mapM fun p => do
      let plane ← simPlane x q p.1 p.2
      return (List.range sh.OH).flatMap plane) =
      (.ok ((List.range sh.N ×ˢ List.range sh.OC).map fun p =>
        (List.range sh.OH).flatMap fun oh => (List.range sh.OW).map fun ow =>
          x.accumulator q p.1 p.2 oh ow) : Except PyError _) := by
    apply mapM_eq_ok_map
    intro p _
    obtain ⟨plane, hrun, hrows⟩ := simPlane_eq x q p.1 p.2
    rw [hrun]
    show Except.ok _ = Except.ok _
    congr 1
    exact flatMap_congr fun oh hoh => hrows oh (mem_range.mp hoh)
  have hflat : ((List.range sh.N ×ˢ List.range sh.OC).map fun p =>
      (List.range sh.OH).flatMap fun oh => (List.range sh.OW).map fun ow =>
        x.accumulator q p.1 p.2 oh ow).flatten =
      sh.outputs.map fun t => x.accumulator q t.1 t.2.1 t.2.2.1 t.2.2.2 := by
    rw [← flatMap_def, PyList.flatMap_product]
    simp only [ConvShape.outputs, PyList.map_product]
  rw [simConv2dS8, hplanes]
  show List.mapM _ _ = _
  rw [hflat, mapM_map]
  rfl

/-- The kernel requantises the accumulators one by one. -/
theorem kernelConv2dS8_eq : kernelConv2dS8 x q multiplier shift = sh.outputs.mapM fun t => do
    let v ← q.kernelElement multiplier shift (x.accumulator q t.1 t.2.1 t.2.2.1 t.2.2.2)
    return (sh.outputAddr t.1 t.2.1 t.2.2.1 t.2.2.2, v) := by
  apply mapM_congr
  rintro ⟨n, oc, oh, ow⟩ ht
  obtain ⟨hn, hoc, -, -⟩ := ConvShape.mem_outputs.mp ht
  show (kernelAcc x q n oc oh ow >>= _) = _
  rw [kernelAcc_eq x q hn hoc]
  rfl

/-- `_sim_conv2d_s8` and `kernel_conv2d_s8` agree iff the shift is shorter than a register, and
whenever the rounding term overflows the register, the clamp absorbs it. -/
theorem simConv2dS8_eq_kernel_iff :
    (∃ out, simConv2dS8 x q multiplier shift = .ok out ∧
      kernelConv2dS8 x q multiplier shift = .ok (storeFrom 0 out)) ↔
      -31 ≤ shift ∧ shift ≤ 31 ∧ ∀ n < sh.N, ∀ oc < sh.OC, ∀ oh < sh.OH, ∀ ow < sh.OW,
        Overflows multiplier shift (x.accumulator q n oc oh ow) → q.Absorbs shift := by
  rw [simConv2dS8_eq, kernelConv2dS8_eq, mapM_eq_storeFrom_iff sh.map_outputAddr]
  simp only [simElement_eq_kernelElement_iff]
  constructor
  · intro h
    have hfirst : (0, 0, 0, 0) ∈ sh.outputs :=
      ConvShape.mem_outputs.mpr ⟨sh.n_pos, sh.oc_pos, Nat.succ_pos _, Nat.succ_pos _⟩
    obtain ⟨hlo, hhi, -⟩ := h _ hfirst
    refine ⟨hlo, hhi, fun n hn oc hoc oh hoh ow how => ?_⟩
    exact (h _ (ConvShape.mem_outputs.mpr ⟨hn, hoc, hoh, how⟩)).2.2
  · rintro ⟨hlo, hhi, h⟩ ⟨n, oc, oh, ow⟩ ht
    obtain ⟨hn, hoc, hoh, how⟩ := ConvShape.mem_outputs.mp ht
    exact ⟨hlo, hhi, h n hn oc hoc oh hoh ow how⟩

end

/-- A filter of one tap on an image of one pixel. -/
def pointShape : ConvShape :=
  ⟨1, 1, 1, 1, 1, 1, 1, 1, 1, 0, 0, by decide, by decide, by decide, by decide, by decide, by decide⟩

/-- Zeros, with the largest bias. -/
def largestBias : ConvTensors pointShape where
  input := [0]
  weight := [0]
  bias := [2 ^ 31 - 1]
  input_length := rfl
  weight_length := rfl
  bias_length := rfl
  input_fits := by decide
  weight_fits := by decide
  bias_fits := by decide

/-- Symmetric quantisation without an activation. -/
def symmetricBlock : QuantBlock := ⟨0, 0, 0, -128, 127, by decide, by decide, by decide⟩

/-- The factor of `2 ^ (-32)` has a shift by `31`. -/
theorem requantizeMultiplierShift_two_pow :
    requantizeMultiplierShift ((2 : ℚ) ^ (-32 : ℤ)) = (2 ^ 30, 31) := by
  have hlog : Int.log 2 ((2 : ℚ) ^ (-32 : ℤ)) = -32 := Int.log_zpow (by decide) (-32)
  have hround : halfEven ((2 : ℚ) ^ (-32 : ℤ) / ((2 : ℕ) : ℚ) ^ (-32 + 1 : ℤ) *
      ((2 : ℕ) : ℚ) ^ 31) = 2 ^ 30 := by
    have hvalue : (2 : ℚ) ^ (-32 : ℤ) / ((2 : ℕ) : ℚ) ^ (-32 + 1 : ℤ) * ((2 : ℕ) : ℚ) ^ 31 =
        ((2 ^ 30 : ℤ) : ℚ) := by
      norm_num
    rw [hvalue, halfEven, Int.fract_intCast, Int.floor_intCast, if_pos (by norm_num)]
  have hnot : ¬(2 : ℚ) ^ (-32 : ℤ) ≤ 0 := not_le.mpr (by positivity)
  rw [requantizeMultiplierShift, if_neg hnot, hlog]
  simp only [hround]
  decide

/-- With the shift by `31`, the simulator turns the largest accumulator into `-1` and the kernel
into `1`. -/
theorem conv2dS8_largestBias_differs : ¬∀ (sh : ConvShape) (x : ConvTensors sh) (q : QuantBlock)
    (realMult : ℚ), 0 < realMult → x.NoOverflow q →
      ∃ out, simConv2dS8 x q (requantizeMultiplierShift realMult).1
          (requantizeMultiplierShift realMult).2 = .ok out ∧
        kernelConv2dS8 x q (requantizeMultiplierShift realMult).1
          (requantizeMultiplierShift realMult).2 = .ok (storeFrom 0 out) := by
  intro h
  have hfits : largestBias.NoOverflow symmetricBlock := by
    unfold ConvTensors.NoOverflow
    decide
  obtain ⟨out, hsim, hkernel⟩ := h _ largestBias symmetricBlock (2 ^ (-32 : ℤ)) (by positivity) hfits
  rw [requantizeMultiplierShift_two_pow] at hsim hkernel
  have hone : simConv2dS8 largestBias symmetricBlock (2 ^ 30) 31 = .ok [-1] := by decide
  have hother : kernelConv2dS8 largestBias symmetricBlock (2 ^ 30) 31 = .ok [(0, 1)] := by
    decide
  rw [hone] at hsim
  rw [hother, ← Except.ok.inj hsim] at hkernel
  revert hkernel
  decide

end ModelBlaster.Extract

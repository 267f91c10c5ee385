import ModelBlaster.Extract.Conv2d

/-!
# The per-channel ops

`conv2d_s8_pc` and `linear_s8_pc`, whose multiplier and shift depend on the output channel, as the
branches of the simulation loop evaluate them and as their kernels do.

The loop of the convolution reads the input inside the branch for padding, and keeps `in_row`
elsewhere. As a local of `extract_int8`, it is unbound before the first such op and left over from
the last one later on.

## Main definitions

* `simConv2dS8Pc`, `kernelConv2dS8Pc`: the convolution;
* `simLinearS8Pc`, `kernelLinearS8Pc`: the linear op;
* `Harmless`: the shapes whose convolutions come out right.

## Main results

* `simLinearS8Pc_eq_kernel`: the linear op is mirrored;
* `simConv2dS8Pc_eq_kernel_iff`: the convolution is mirrored iff its shape is harmless.
-/

namespace ModelBlaster.Extract

open TwosComplement List Fallible Function

/-- The multipliers and shifts of `C` channels. -/
structure PerChannel (C : ℕ) where
  multiplier : List ℤ
  shift : List ℤ
  multiplier_length : multiplier.length = C
  shift_length : shift.length = C
  multiplier_range : ∀ m ∈ multiplier, 2 ^ 30 ≤ m ∧ m < 2 ^ 31
  shift_range : ∀ s ∈ shift, 0 ≤ s ∧ s ≤ 30

/-- The offsets are zero. -/
def QuantBlock.Symmetric (q : QuantBlock) : Prop :=
  q.inputOffset = 0 ∧ q.filterOffset = 0 ∧ q.outputOffset = 0

/-- An element of the array that the branches store, from its accumulator. There is no output
offset in them. -/
def QuantBlock.simElementPc (q : QuantBlock) (multiplier shift acc : ℤ) : Except PyError ℤ :=
  (requantizeInt acc multiplier shift).map fun scaled =>
    toInt8 (clip q.activationMin q.activationMax scaled)

/-- An element that the kernels write, from its accumulator. -/
def QuantBlock.kernelElementPc (q : QuantBlock) (multiplier shift acc : ℤ) : Except CFault ℤ :=
  (requantizePcC acc multiplier shift).map q.kernelStore

/-! ### The linear op -/

/-- The tensors of a linear op: `[M, K]`, `[N, K]` and `[N]`. -/
structure LinearTensors (M K N : ℕ) where
  input : List ℤ
  weight : List ℤ
  bias : List ℤ
  input_length : input.length = M * K
  weight_length : weight.length = N * K
  bias_length : bias.length = N
  input_fits : ∀ v ∈ input, Fits 8 v
  weight_fits : ∀ v ∈ weight, Fits 8 v
  bias_fits : ∀ v ∈ bias, Fits 32 v

section
variable {M K N : ℕ} (x : LinearTensors M K N) (q : QuantBlock) (pc : PerChannel N)

/-- An element of `in_2d @ w_2d.T + b_q` -/
def simLinearAcc (m n : ℕ) : ℤ :=
  wrap 32 (wrap 32 ((List.range K).map fun k =>
    x.input.getD (m * K + k) 0 * x.weight.getD (n * K + k) 0).sum + x.bias.getD n 0)

/-- The branch for `linear_s8_pc`. -/
def simLinearS8Pc : Except PyError (List ℤ) :=
  (List.range M ×ˢ List.range N).mapM fun t =>
    q.simElementPc (pc.multiplier.getD t.2 0) (pc.shift.getD t.2 0) (simLinearAcc x t.1 t.2)

/-- The accumulator of `kernel_linear_s8_pc`. -/
def kernelLinearAcc (m n : ℕ) : Except CFault ℤ := do
  let bias ← load x.bias n
  (List.range K).foldlM (fun acc k => do
    let v ← load x.input (m * K + k : ℕ)
    let w ← load x.weight (n * K + k : ℕ)
    return wrap 32 (acc + wrap 32 (wrap 32 (v + q.inputOffset) * wrap 32 (w + q.filterOffset)))) bias

/-- The writes of `kernel_linear_s8_pc`. -/
def kernelLinearS8Pc : Except CFault (List (ℕ × ℤ)) :=
  (List.range M ×ˢ List.range N).mapM fun t => do
    let mult ← load pc.multiplier t.2
    let shift ← load pc.shift t.2
    let acc ← kernelLinearAcc x q t.1 t.2
    let v ← q.kernelElementPc mult shift acc
    return (t.1 * N + t.2, v)

end

/-! ### The convolution -/

section
variable {sh : ConvShape} (x : ConvTensors sh) (q : QuantBlock) (pc : PerChannel sh.OC)

/-- A NumPy row in an expression with rows of length `n`. -/
def broadcast (n : ℕ) (row : List ℤ) : Except PyError (List ℤ) :=
  if row.length = n then .ok row
  else if row.length = 1 then .ok (List.replicate n (row.getD 0 0))
  else .error .valueError

/-- What the branch for padding puts into `in_row`. -/
def simPadRow (n ic kh kw oh : ℕ) : Except PyError (List ℤ) :=
  (List.range sh.OW).mapM fun ow =>
    if sh.iw kw ow < 0 ∨ sh.IW ≤ sh.iw kw ow then do
      -- The padding is overwritten with a read outside of the image.
      let v ← x.in4d n ic (sh.ih kh oh) (sh.iw kw ow)
      return wrap 32 (v + q.inputOffset)
    else
      return 0

/-- `out[n, oc]`, by rows, and the local `in_row`. -/
structure PcState where
  plane : ℕ → List ℤ
  inRow : Option (List ℤ)

/-- `out[n, oc, oh] += in_row * w_v` -/
def simAddPc (n : ℕ) (s : PcState) (oh : ℕ) (wV : ℤ) : Option (List ℤ) → Except PyError PcState
  | none => .error .unboundLocalError
  | some row => do
    let row' ← broadcast n row
    return ⟨Function.update s.plane oh (addRow (s.plane oh) row' wV), some row⟩

/-- A pass of the inner loops. -/
def simStepPc (n oc : ℕ) (s : PcState) : (ℕ × ℕ × ℕ) × ℕ → Except PyError PcState
  | ((ic, kh, kw), oh) =>
    let wV := wrap 32 (x.weightAt oc ic kh kw + q.filterOffset)
    if sh.ih kh oh < 0 ∨ sh.IH ≤ sh.ih kh oh then do
      let inRow ← simPadRow x q n ic kh kw oh
      simAddPc sh.OW s oh wV (some inRow)
    else
      simAddPc sh.OW s oh wV s.inRow

/-- `out`, by planes, and the local `in_row`. -/
structure PcOut where
  out : ℕ × ℕ → ℕ → List ℤ
  inRow : Option (List ℤ)

/-- A pass of the outer loops. -/
def simPlanePc (s : PcOut) (p : ℕ × ℕ) : Except PyError PcOut := do
  let s' ← (sh.taps ×ˢ List.range sh.OH).foldlM (simStepPc x q p.1 p.2)
    ⟨fun _ => List.replicate sh.OW (x.bias.getD p.2 0), s.inRow⟩
  return ⟨Function.update s.out p s'.plane, s'.inRow⟩

/-- The branch for `conv2d_s8_pc`, with the `in_row` that it finds. What is requantised inside the
loop over the images is requantised again after the last one. -/
def simConv2dS8Pc (inRow : Option (List ℤ)) : Except PyError (List ℤ) := do
  let s ← (List.range sh.N ×ˢ List.range sh.OC).foldlM (simPlanePc x q)
    ⟨fun _ _ => List.replicate sh.OW 0, inRow⟩
  sh.outputs.mapM fun t =>
    q.simElementPc (pc.multiplier.getD t.2.1 0) (pc.shift.getD t.2.1 0)
      ((s.out (t.1, t.2.1) t.2.2.1).getD t.2.2.2 0)

/-- What a tap adds to the accumulator of `kernel_conv2d_s8_pc`. -/
def kernelTapPc (n oc oh ow : ℕ) (acc : ℤ) : ℕ × ℕ × ℕ → Except CFault ℤ
  | (ic, kh, kw) =>
    let ih := sh.ih kh oh
    let iw := sh.iw kw ow
    if ih < 0 ∨ sh.IH ≤ ih then pure acc
    else if iw < 0 ∨ sh.IW ≤ iw then pure acc
    else do
      let v ← load x.input (((n * sh.IC + ic : ℕ) * sh.IH + ih) * sh.IW + iw)
      let w ← load x.weight (sh.weightAddr oc ic kh kw)
      return wrap 32 (acc + wrap 32 (wrap 32 (v + q.inputOffset) * wrap 32 (w + q.filterOffset)))

/-- The accumulator of an element of the output. -/
def kernelAccPc (n oc oh ow : ℕ) : Except CFault ℤ := do
  let bias ← load x.bias oc
  sh.taps.foldlM (kernelTapPc x q n oc oh ow) bias

/-- The writes of `kernel_conv2d_s8_pc`. -/
def kernelConv2dS8Pc : Except CFault (List (ℕ × ℤ)) :=
  sh.outputs.mapM fun t => do
    let mult ← load pc.multiplier t.2.1
    let shift ← load pc.shift t.2.1
    let acc ← kernelAccPc x q t.1 t.2.1 t.2.2.1 t.2.2.2
    let v ← q.kernelElementPc mult shift acc
    return (sh.outputAddr t.1 t.2.1 t.2.2.1 t.2.2.2, v)

end

/-- A value of the local `in_row`. -/
structure InRow where
  values : List ℤ
  fits : ∀ v ∈ values, Fits 32 v

/-- A shape whose convolutions come out right, after an op that has left `inRow`: filter rows are in
the padding and filter columns in the image wherever they are applied, or it is the other way round
and the row that is left is zero. -/
def Harmless (sh : ConvShape) (inRow : Option InRow) : Prop :=
  ∀ ic kh kw oh, (ic, kh, kw) ∈ sh.taps → oh < sh.OH →
    (¬sh.RowInside kh oh ∧ ∀ ow < sh.OW, sh.ColInside kw ow) ∨
    (sh.RowInside kh oh ∧ (∀ ow < sh.OW, ¬sh.ColInside kw ow) ∧
      ∃ row ∈ inRow, broadcast sh.OW row.values = .ok (List.replicate sh.OW 0))

/-! ### Elements -/

variable {shift : ℤ} {q : QuantBlock}

/-- A requantised value is an `int32`. -/
theorem fits_requantizeInt {acc multiplier v : ℤ} (h : requantizeInt acc multiplier shift = .ok v) :
    Fits 32 v := by
  rw [requantizeInt] at h
  simp only at h
  split_ifs at h with hpos hround
  · injection h with hv
    rw [← hv]
    apply fits_shiftRight
    exact fits_wrap (by decide) _
  · injection h with hv
    rw [← hv]
    exact fits_wrap (by decide) _

/-- Without offsets, what is requantised alike is stored alike. -/
theorem exists_simElementPc_eq (hq : q.Symmetric) (hlo : 0 ≤ shift) (hhi : shift ≤ 30)
    (multiplier acc : ℤ) : ∃ v, q.simElementPc multiplier shift acc = .ok v ∧
      q.kernelElementPc multiplier shift acc = .ok v := by
  obtain ⟨v, hsim, hkernel⟩ := requantizeInt_eq_requantizePcC (show -31 ≤ shift by omega)
    (by omega) acc multiplier
  refine ⟨_, by rw [QuantBlock.simElementPc, hsim]; rfl, ?_⟩
  rw [QuantBlock.kernelElementPc, hkernel]
  show Except.ok _ = _
  rw [QuantBlock.kernelStore, hq.2.2, add_zero, clampC_eq_clip,
    wrap_eq_self (by decide) (fits_requantizeInt hsim)]

namespace PerChannel

variable {C : ℕ} (pc : PerChannel C) {c : ℕ}

theorem load_multiplier (hc : c < C) : load pc.multiplier c = .ok (pc.multiplier.getD c 0) :=
  load_of_lt (by rwa [pc.multiplier_length])

theorem load_shift (hc : c < C) : load pc.shift c = .ok (pc.shift.getD c 0) :=
  load_of_lt (by rwa [pc.shift_length])

theorem shift_getD (hc : c < C) : 0 ≤ pc.shift.getD c 0 ∧ pc.shift.getD c 0 ≤ 30 := by
  have hc' : c < pc.shift.length := by rwa [pc.shift_length]
  rw [getD_eq_getElem?_getD, getElem?_eq_getElem hc']
  exact pc.shift_range _ (getElem_mem hc')

end PerChannel

/-! ### The linear op, golden and device -/

section
variable {M K N : ℕ} (x : LinearTensors M K N) {q : QuantBlock} (pc : PerChannel N)

/-- The kernel accumulates what the matrix product does. -/
theorem kernelLinearAcc_eq (hq : q.Symmetric) {m n : ℕ} (hm : m < M) (hn : n < N) :
    kernelLinearAcc x q m n = .ok (simLinearAcc x m n) := by
  obtain ⟨hin, hfilter, -⟩ := hq
  have hbias : load x.bias n = .ok (x.bias.getD n 0) := load_of_lt (by rwa [x.bias_length])
  have hfits : wrap 32 (x.bias.getD n 0) = x.bias.getD n 0 := by
    rw [getD_eq_getElem?_getD, getElem?_eq_getElem (by rwa [x.bias_length])]
    exact wrap_eq_self (by decide) (x.bias_fits _ (getElem_mem _))
  set term : ℕ → ℤ := fun k => x.input.getD (m * K + k) 0 * x.weight.getD (n * K + k) 0
  have hsum : (List.range K).foldl (fun acc k => wrap 32 (acc + wrap 32 (term k)))
      (x.bias.getD n 0) = simLinearAcc x m n := by
    rw [foldl_wrap_add _ _ hfits, wrap_sum_wrap, simLinearAcc, wrap_wrap_add, add_comm]
  rw [kernelLinearAcc, hbias, ← hsum]
  apply foldlM_eq_ok_foldl
  intro k hk acc
  have hk' : k < K := mem_range.mp hk
  have hinput := load_of_lt (a := x.input) (i := m * K + k)
    (by rw [x.input_length]; exact PyList.mul_add_lt hm hk')
  have hweight := load_of_lt (a := x.weight) (i := n * K + k)
    (by rw [x.weight_length]; exact PyList.mul_add_lt hn hk')
  rw [hinput, hweight]
  show Except.ok _ = Except.ok _
  rw [hin, hfilter, add_zero, add_zero, wrap_mul_wrap]

/-- The linear op is mirrored. -/
theorem simLinearS8Pc_eq_kernel (hq : q.Symmetric) : ∃ out, simLinearS8Pc x q pc = .ok out ∧
    kernelLinearS8Pc x q pc = .ok (storeFrom 0 out) := by
  have haddr : ((List.range M ×ˢ List.range N).map fun t => t.1 * N + t.2) =
      List.range (List.range M ×ˢ List.range N).length := by
    rw [length_product, length_range, length_range,
      ← map_id (List.range (M * N)), PyList.map_range_mul, PyList.map_product]
    rfl
  have hkernel : kernelLinearS8Pc x q pc = (List.range M ×ˢ List.range N).mapM fun t => do
      let v ← q.kernelElementPc (pc.multiplier.getD t.2 0) (pc.shift.getD t.2 0)
        (simLinearAcc x t.1 t.2)
      return (t.1 * N + t.2, v) := by
    apply mapM_congr
    rintro ⟨m, n⟩ ht
    rw [mem_product, mem_range, mem_range] at ht
    rw [pc.load_multiplier ht.2, pc.load_shift ht.2, kernelLinearAcc_eq x hq ht.1 ht.2]
    rfl
  rw [hkernel]
  apply (mapM_eq_storeFrom_iff haddr).mpr
  rintro ⟨m, n⟩ ht
  rw [mem_product, mem_range, mem_range] at ht
  obtain ⟨hlo, hhi⟩ := pc.shift_getD ht.2
  exact exists_simElementPc_eq hq hlo hhi _ _

end

/-! ### The accumulators of the convolution -/

section
variable {sh : ConvShape} (x : ConvTensors sh) {q : QuantBlock} {n oc oh ow : ℕ}

/-- Without an input offset, the padding is zero. -/
theorem inputAt_of_not_inside (hq : q.Symmetric) {ic kh kw : ℕ}
    (h : ¬(sh.RowInside kh oh ∧ sh.ColInside kw ow)) : x.inputAt q n oh ow (ic, kh, kw) = 0 := by
  rw [ConvTensors.inputAt, if_neg h, hq.1]

theorem sum_append_single (done : List (ℕ × ℕ × ℕ)) (tap : ℕ × ℕ × ℕ) :
    x.sum q n oc oh ow (done ++ [tap]) =
      x.sum q n oc oh ow done + x.inputAt q n oh ow tap * x.factor q oc tap := by
  rw [ConvTensors.sum, ConvTensors.sum, map_append, sum_append, map_singleton,
    sum_singleton, add_assoc]

section
variable (hq : q.Symmetric) (hn : n < sh.N) (hoc : oc < sh.OC)
include hq hn hoc

/-- A tap that is left out would contribute nothing. -/
theorem kernelTapPc_eq {tap : ℕ × ℕ × ℕ} (htap : tap ∈ sh.taps) (acc : ℤ) :
    kernelTapPc x q n oc oh ow (wrap 32 acc) tap =
      .ok (wrap 32 (acc + x.inputAt q n oh ow tap * x.factor q oc tap)) := by
  obtain ⟨ic, kh, kw⟩ := tap
  obtain ⟨hic, hkh, hkw⟩ := ConvShape.mem_taps.mp htap
  by_cases hin : sh.RowInside kh oh ∧ sh.ColInside kw ow
  · obtain ⟨⟨hlo, hhi⟩, hlo', hhi'⟩ := hin
    have hread : x.inputAt q n oh ow (ic, kh, kw) = _ := if_pos ⟨⟨hlo, hhi⟩, hlo', hhi'⟩
    rw [kernelTapPc, x.load_input hn hic ⟨hlo, hhi⟩ ⟨hlo', hhi'⟩, x.load_weight hoc hic hkh hkw,
      hread, if_neg (by omega), if_neg (by omega)]
    show Except.ok _ = Except.ok _
    rw [wrap_wrap_add, wrap_add_wrap]
    rfl
  · rw [inputAt_of_not_inside x hq hin, zero_mul, add_zero, kernelTapPc]
    rw [ConvShape.RowInside, ConvShape.ColInside] at hin
    by_cases hrow : sh.ih kh oh < 0 ∨ sh.IH ≤ sh.ih kh oh
    · rw [if_pos hrow]
      rfl
    · rw [if_neg hrow, if_pos (by omega)]
      rfl

/-- The accumulator of the kernel. -/
theorem kernelAccPc_eq :
    kernelAccPc x q n oc oh ow = .ok (x.accumulator q n oc oh ow) := by
  have hbias : load x.bias oc = .ok (x.bias.getD oc 0) := load_of_lt (by rwa [x.bias_length])
  rw [kernelAccPc, hbias]
  show List.foldlM _ _ _ = _
  obtain ⟨acc, hrun, hacc⟩ := exists_foldlM_eq_ok (f := kernelTapPc x q n oc oh ow)
    (P := fun done acc => acc = wrap 32 (x.sum q n oc oh ow done)) (l := sh.taps)
    (b := x.bias.getD oc 0)
    (by
      rintro done tap rest _ hsplit rfl
      have htap : tap ∈ sh.taps := by
        rw [← hsplit]
        exact mem_append_right _ mem_cons_self
      exact ⟨_, kernelTapPc_eq x hq hn hoc htap _, by rw [sum_append_single]⟩)
    (by
      rw [ConvTensors.sum, map_nil, sum_nil, add_zero, wrap_eq_self (by decide) (x.fits_bias oc)])
  rw [hrun, hacc]
  rfl

end

end

/-! ### Harmless shapes -/

/-- Where the padding branch reads nothing, it leaves zeros. -/
theorem simPadRow_of_inside {sh : ConvShape} {x : ConvTensors sh} {n : ℕ} {ic kh kw oh : ℕ}
    (hcols : ∀ ow < sh.OW, sh.ColInside kw ow) :
    simPadRow x q n ic kh kw oh = .ok (List.replicate sh.OW 0) := by
  have hreplicate : List.replicate sh.OW (0 : ℤ) = (List.range sh.OW).map fun _ => 0 := by simp
  rw [hreplicate]
  apply mapM_eq_ok_map
  intro ow how
  obtain ⟨hlo, hhi⟩ := hcols ow (mem_range.mp how)
  rw [if_neg (by omega)]
  rfl

section
variable {sh : ConvShape} (x : ConvTensors sh) {q : QuantBlock} {inRow : Option InRow}

/-- On a harmless shape, `in_row` is what was left or zero. -/
def Stale (sh : ConvShape) (inRow : Option InRow) (row : Option (List ℤ)) : Prop :=
  row = inRow.map InRow.values ∨ row = some (List.replicate sh.OW 0)

theorem broadcast_of_length {n : ℕ} {row : List ℤ} (h : row.length = n) :
    broadcast n row = .ok row := if_pos h

section
variable (hq : q.Symmetric)
include hq

/-- A pass adds zeros, as do the taps in the padding. -/
theorem simStepPc_of_harmless (hsh : Harmless sh inRow) {n oc : ℕ} {done : List ((ℕ × ℕ × ℕ) × ℕ)}
    {s : PcState}
    (hacc : Accumulated sh.OH sh.OW (x.bias.getD oc 0)
      (fun t ow => x.inputAt q n t.2 ow t.1 * x.factor q oc t.1) done s.plane)
    (hrow : Stale sh inRow s.inRow) {t : (ℕ × ℕ × ℕ) × ℕ} (ht : t ∈ sh.taps ×ˢ List.range sh.OH) :
    ∃ s', simStepPc x q n oc s t = .ok s' ∧
      Accumulated sh.OH sh.OW (x.bias.getD oc 0)
        (fun t ow => x.inputAt q n t.2 ow t.1 * x.factor q oc t.1) (done ++ [t]) s'.plane ∧
      Stale sh inRow s'.inRow := by
  obtain ⟨⟨ic, kh, kw⟩, oh⟩ := t
  rw [mem_product, mem_range] at ht
  have hreplicate : List.replicate sh.OW (0 : ℤ) = (List.range sh.OW).map fun _ => 0 := by simp
  have hbroadcast : broadcast sh.OW (List.replicate sh.OW 0) = .ok (List.replicate sh.OW 0) :=
    broadcast_of_length length_replicate
  -- What is left to show for a pass that adds a row of zeros.
  have hzero : (∀ ow < sh.OW, x.inputAt q n oh ow (ic, kh, kw) = 0) →
      Accumulated sh.OH sh.OW (x.bias.getD oc 0)
        (fun t ow => x.inputAt q n t.2 ow t.1 * x.factor q oc t.1)
        (done ++ [((ic, kh, kw), oh)]) (Function.update s.plane oh
          (addRow (s.plane oh) (List.replicate sh.OW 0)
            (wrap 32 (x.weightAt oc ic kh kw + q.filterOffset)))) := by
    intro hinput
    rw [hreplicate]
    refine hacc.step fun ow how => ?_
    rw [hinput ow how, zero_mul, zero_mul]
  rcases hsh ic kh kw oh ht.1 ht.2 with ⟨hout, hcols⟩ | ⟨hin, hcols, row, hleft, hrows⟩
  · have hpad : simPadRow x q n ic kh kw oh = .ok (List.replicate sh.OW 0) :=
      simPadRow_of_inside hcols
    have hinput : ∀ ow < sh.OW, x.inputAt q n oh ow (ic, kh, kw) = 0 :=
      fun ow _ => inputAt_of_not_inside x hq fun h => hout h.1
    refine ⟨⟨_, some (List.replicate sh.OW 0)⟩, ?_, hzero hinput, .inr rfl⟩
    rw [ConvShape.RowInside] at hout
    rw [simStepPc, if_pos (by omega), hpad]
    show (broadcast sh.OW _ >>= _) = _
    rw [hbroadcast]
    rfl
  · have hinput : ∀ ow < sh.OW, x.inputAt q n oh ow (ic, kh, kw) = 0 :=
      fun ow how => inputAt_of_not_inside x hq fun h => hcols ow how h.2
    obtain ⟨hlo, hhi⟩ := hin
    -- Both rows that can be there are broadcast to zeros.
    obtain ⟨row', hrow', hrows'⟩ : ∃ row', s.inRow = some row' ∧
        broadcast sh.OW row' = .ok (List.replicate sh.OW 0) := by
      rcases hrow with hrow | hrow
      · refine ⟨row.values, ?_, hrows⟩
        rw [hrow, Option.mem_def.mp hleft]
        rfl
      · exact ⟨_, hrow, hbroadcast⟩
    refine ⟨⟨_, s.inRow⟩, ?_, hzero hinput, hrow⟩
    rw [simStepPc, if_neg (by omega), hrow']
    show (broadcast sh.OW row' >>= _) = _
    rw [hrows']
    rfl

/-- A plane of a harmless shape comes out with the accumulators. -/
theorem simPlanePc_of_harmless (hsh : Harmless sh inRow) {s : PcOut} (hrow : Stale sh inRow s.inRow)
    (p : ℕ × ℕ) :
    ∃ s', simPlanePc x q s p = .ok s' ∧ Stale sh inRow s'.inRow ∧
      (∀ p' ≠ p, s'.out p' = s.out p') ∧ ∀ oh < sh.OH, s'.out p oh =
        (List.range sh.OW).map fun ow => x.accumulator q p.1 p.2 oh ow := by
  obtain ⟨s', hrun, hacc, hrow'⟩ := exists_foldlM_eq_ok
    (f := simStepPc x q p.1 p.2) (l := sh.taps ×ˢ List.range sh.OH)
    (P := fun done s => Accumulated sh.OH sh.OW (x.bias.getD p.2 0)
      (fun t ow => x.inputAt q p.1 t.2 ow t.1 * x.factor q p.2 t.1) done s.plane ∧
        Stale sh inRow s.inRow)
    (fun done t rest s hsplit hs => by
      obtain ⟨s', hstep, hnext⟩ := simStepPc_of_harmless x hq hsh hs.1 hs.2
        (t := t) (by rw [← hsplit]; exact mem_append_right _ mem_cons_self)
      exact ⟨s', hstep, hnext⟩)
    (b := ⟨fun _ => List.replicate sh.OW (x.bias.getD p.2 0), s.inRow⟩)
    ⟨Accumulated.init (x.fits_bias p.2), hrow⟩
  refine ⟨⟨Function.update s.out p s'.plane, s'.inRow⟩, ?_, hrow', ?_, ?_⟩
  · rw [simPlanePc, hrun]
    rfl
  · intro p' hne
    exact update_of_ne hne _ _
  · intro oh hoh
    show Function.update s.out p s'.plane p oh = _
    rw [update_self]
    exact hacc.final hoh

/-- The kernel requantises the accumulators one by one. -/
theorem kernelConv2dS8Pc_eq (pc : PerChannel sh.OC) :
    kernelConv2dS8Pc x q pc = sh.outputs.mapM fun t => do
      let v ← q.kernelElementPc (pc.multiplier.getD t.2.1 0) (pc.shift.getD t.2.1 0)
        (x.accumulator q t.1 t.2.1 t.2.2.1 t.2.2.2)
      return (sh.outputAddr t.1 t.2.1 t.2.2.1 t.2.2.2, v) := by
  apply mapM_congr
  rintro ⟨n, oc, oh, ow⟩ ht
  obtain ⟨hn, hoc, -, -⟩ := ConvShape.mem_outputs.mp ht
  rw [pc.load_multiplier hoc, pc.load_shift hoc, kernelAccPc_eq x hq hn hoc]
  rfl

/-- Simulator and kernel agree iff the loops get through and every element comes out alike. -/
theorem simConv2dS8Pc_eq_iff (pc : PerChannel sh.OC) (inRow : Option (List ℤ)) :
    (∃ out, simConv2dS8Pc x q pc inRow = .ok out ∧
      kernelConv2dS8Pc x q pc = .ok (storeFrom 0 out)) ↔
      ∃ s, (List.range sh.N ×ˢ List.range sh.OC).foldlM (simPlanePc x q)
          ⟨fun _ _ => List.replicate sh.OW 0, inRow⟩ = .ok s ∧
        ∀ t ∈ sh.outputs, ∃ v,
          q.simElementPc (pc.multiplier.getD t.2.1 0) (pc.shift.getD t.2.1 0)
            ((s.out (t.1, t.2.1) t.2.2.1).getD t.2.2.2 0) = .ok v ∧
          q.kernelElementPc (pc.multiplier.getD t.2.1 0) (pc.shift.getD t.2.1 0)
            (x.accumulator q t.1 t.2.1 t.2.2.1 t.2.2.2) = .ok v := by
  rw [kernelConv2dS8Pc_eq x hq]
  constructor
  · rintro ⟨out, hsim, hkernel⟩
    obtain ⟨s, hloops, helements⟩ := bind_eq_ok_iff.mp hsim
    exact ⟨s, hloops, (mapM_eq_storeFrom_iff sh.map_outputAddr).mp ⟨out, helements, hkernel⟩⟩
  · rintro ⟨s, hloops, h⟩
    obtain ⟨out, helements, hkernel⟩ := (mapM_eq_storeFrom_iff sh.map_outputAddr).mpr h
    exact ⟨out, bind_eq_ok_iff.mpr ⟨s, hloops, helements⟩, hkernel⟩

/-- The convolutions of a harmless shape are mirrored. -/
theorem simConv2dS8Pc_of_harmless (hsh : Harmless sh inRow) (pc : PerChannel sh.OC) :
    ∃ out, simConv2dS8Pc x q pc (inRow.map InRow.values) = .ok out ∧
      kernelConv2dS8Pc x q pc = .ok (storeFrom 0 out) := by
  apply (simConv2dS8Pc_eq_iff x hq pc _).mpr
  -- The planes that are done hold the accumulators.
  obtain ⟨s, hloops, hdone, -⟩ := exists_foldlM_eq_ok (f := simPlanePc x q)
    (l := List.range sh.N ×ˢ List.range sh.OC)
    (P := fun done s => (∀ p ∈ done, ∀ oh < sh.OH, s.out p oh =
      (List.range sh.OW).map fun ow => x.accumulator q p.1 p.2 oh ow) ∧ Stale sh inRow s.inRow)
    (fun done p rest s _ hs => by
      obtain ⟨s', hstep, hrow, hother, hplane⟩ := simPlanePc_of_harmless x hq hsh hs.2 p
      refine ⟨s', hstep, fun p' hp' oh hoh => ?_, hrow⟩
      by_cases heq : p' = p
      · exact heq ▸ hplane oh hoh
      · rw [hother p' heq]
        refine hs.1 p' ?_ oh hoh
        exact (mem_append.mp hp').resolve_right fun h => heq (mem_singleton.mp h))
    (b := ⟨fun _ _ => List.replicate sh.OW 0, inRow.map InRow.values⟩)
    ⟨fun p hp => absurd hp not_mem_nil, .inl rfl⟩
  refine ⟨s, hloops, ?_⟩
  rintro ⟨n, oc, oh, ow⟩ ht
  obtain ⟨hn, hoc, hoh, how⟩ := ConvShape.mem_outputs.mp ht
  have hp : (n, oc) ∈ List.range sh.N ×ˢ List.range sh.OC :=
    mem_product.mpr ⟨mem_range.mpr hn, mem_range.mpr hoc⟩
  have hread : (s.out (n, oc) oh).getD ow 0 = x.accumulator q n oc oh ow := by
    rw [hdone (n, oc) hp oh hoh, getD_eq_getElem?_getD, getElem?_map, getElem?_range how]
    rfl
  obtain ⟨hlo, hhi⟩ := pc.shift_getD hoc
  rw [hread]
  exact exists_simElementPc_eq hq hlo hhi _ _

end

end

/-! ### Probes -/

/-- The weights of a filter with one tap, in the first output channel. -/
def probeWeight (sh : ConvShape) (ic kh kw : ℕ) : List ℤ :=
  (List.range (sh.OC * sh.IC * sh.KH * sh.KW)).map fun i =>
    if i = sh.weightAddr 0 ic kh kw then 1 else 0

/-- An input of one value under a filter with one tap. -/
def probe (sh : ConvShape) (one : Bool) (ic kh kw : ℕ) : ConvTensors sh where
  input := List.replicate (sh.N * sh.IC * sh.IH * sh.IW) one.toInt
  weight := probeWeight sh ic kh kw
  bias := List.replicate sh.OC 0
  input_length := length_replicate
  weight_length := by rw [probeWeight, length_map, length_range]
  bias_length := length_replicate
  input_fits := by
    intro v hv
    rw [eq_of_mem_replicate hv]
    cases one <;> decide
  weight_fits := by
    intro v hv
    obtain ⟨i, -, rfl⟩ := mem_map.mp hv
    split_ifs <;> decide
  bias_fits := by
    intro v hv
    rw [eq_of_mem_replicate hv]
    decide

/-- Multipliers and shifts that keep small accumulators. -/
def probeParams (C : ℕ) : PerChannel C where
  multiplier := List.replicate C (2 ^ 31 - 1)
  shift := List.replicate C 0
  multiplier_length := length_replicate
  shift_length := length_replicate
  multiplier_range := by
    intro m hm
    rw [eq_of_mem_replicate hm]
    decide
  shift_range := by
    intro s hs
    rw [eq_of_mem_replicate hs]
    decide

/-- They tell the accumulators `0` and `1` from all others. -/
theorem eq_of_probe_element {a b v : ℤ} (ha : Fits 32 a) (hb : b = 0 ∨ b = 1)
    (hsim : symmetricBlock.simElementPc (2 ^ 31 - 1) 0 a = .ok v)
    (hkernel : symmetricBlock.kernelElementPc (2 ^ 31 - 1) 0 b = .ok v) : a = b := by
  have hmul : ∀ acc : ℤ, Fits 32 acc →
      mulQ31 acc (2 ^ 31 - 1) = (acc * (2 ^ 31 - 1) + 2 ^ 30) / 2 ^ 31 := by
    rintro acc ⟨hlo, hhi⟩
    have hprod : wrap 64 (acc * (2 ^ 31 - 1)) = acc * (2 ^ 31 - 1) :=
      wrap_eq_self (by decide) ⟨by omega, by omega⟩
    have hround : wrap 64 (acc * (2 ^ 31 - 1) + 2 ^ 30) = acc * (2 ^ 31 - 1) + 2 ^ 30 :=
      wrap_eq_self (by decide) ⟨by omega, by omega⟩
    rw [mulQ31, hprod, hround, Int.shiftRight_eq_div_pow]
    exact wrap_eq_self (by decide) ⟨by omega, by omega⟩
  have hvalue : ∀ acc : ℤ, Fits 32 acc → symmetricBlock.simElementPc (2 ^ 31 - 1) 0 acc =
      .ok (toInt8 (clip (-128) 127 ((acc * (2 ^ 31 - 1) + 2 ^ 30) / 2 ^ 31))) := by
    intro acc hacc
    rw [QuantBlock.simElementPc, requantizeInt, if_neg (lt_irrefl _), neg_zero, Int.toNat_zero,
      Int.shiftLeft_zero, wrap_eq_self (by decide) (fits_mulQ31 _ _), hmul acc hacc]
    rfl
  have hfits : Fits 32 b := by
    rcases hb with rfl | rfl <;> decide
  obtain ⟨v', hsim', hkernel'⟩ := exists_simElementPc_eq (q := symmetricBlock) ⟨rfl, rfl, rfl⟩
    (le_refl 0) (by decide) (2 ^ 31 - 1) b
  rw [hkernel'] at hkernel
  have heq := Except.ok.inj hkernel
  rw [← heq, ← hsim', hvalue a ha, hvalue b hfits] at hsim
  replace heq := Except.ok.inj hsim
  rw [toInt8, toInt8, clip, clip, Int.bmod_def, Int.bmod_def] at heq
  rcases hb with rfl | rfl
  · omega
  · omega

section
variable {sh : ConvShape} {one : Bool} {ic kh kw : ℕ} {oc kw' ic' kh' ow n oh : ℕ}

theorem weightAt_probe (hic : ic < sh.IC) (hkh : kh < sh.KH) (hkw : kw < sh.KW) (hoc : oc < sh.OC)
    (hic' : ic' < sh.IC) (hkh' : kh' < sh.KH) (hkw' : kw' < sh.KW) :
    (probe sh one ic kh kw).weightAt oc ic' kh' kw' =
      if oc = 0 ∧ (ic', kh', kw') = (ic, kh, kw) then 1 else 0 := by
  have hlt : sh.weightAddr oc ic' kh' kw' < sh.OC * sh.IC * sh.KH * sh.KW :=
    PyList.mul_add_lt (PyList.mul_add_lt (PyList.mul_add_lt hoc hic') hkh') hkw'
  have hread : (probe sh one ic kh kw).weightAt oc ic' kh' kw' =
      if sh.weightAddr oc ic' kh' kw' = sh.weightAddr 0 ic kh kw then 1 else 0 := by
    show (probeWeight sh ic kh kw).getD _ 0 = _
    rw [probeWeight, getD_eq_getElem?_getD, getElem?_map, getElem?_range hlt]
    rfl
  have hiff : sh.weightAddr oc ic' kh' kw' = sh.weightAddr 0 ic kh kw ↔
      oc = 0 ∧ (ic', kh', kw') = (ic, kh, kw) := by
    constructor
    · intro h
      obtain ⟨hrows, hkw⟩ := PyList.mul_add_inj hkw' hkw h
      obtain ⟨hplanes, hkh⟩ := PyList.mul_add_inj hkh' hkh hrows
      obtain ⟨hoc, hic⟩ := PyList.mul_add_inj hic' hic hplanes
      exact ⟨hoc, by rw [hic, hkh, hkw]⟩
    · rintro ⟨rfl, heq⟩
      obtain ⟨rfl, rfl, rfl⟩ : ic' = ic ∧ kh' = kh ∧ kw' = kw := by simpa using heq
      rfl
  rw [hread]
  simp only [hiff]

/-- Only the tap of the filter has a factor, and only in the first output channel. -/
theorem factor_probe (htap : (ic, kh, kw) ∈ sh.taps) (hoc : oc < sh.OC) {tap : ℕ × ℕ × ℕ}
    (htap' : tap ∈ sh.taps) :
    (probe sh one ic kh kw).factor symmetricBlock oc tap =
      if oc = 0 ∧ tap = (ic, kh, kw) then 1 else 0 := by
  obtain ⟨hic, hkh, hkw⟩ := ConvShape.mem_taps.mp htap
  obtain ⟨hic', hkh', hkw'⟩ := ConvShape.mem_taps.mp htap'
  rw [ConvTensors.factor, weightAt_probe hic hkh hkw hoc hic' hkh' hkw']
  split_ifs <;> decide

/-- What is read of an array of one value. -/
theorem load_replicate {k : ℕ} {v a i : ℤ} (h : load (List.replicate k v) i = .ok a) : a = v := by
  rw [load] at h
  split_ifs at h with hpos
  cases hget : (List.replicate k v)[i.toNat]? with
  | none =>
    rw [hget] at h
    cases h
  | some b =>
    rw [hget] at h
    rw [← Except.ok.inj h]
    exact eq_of_mem_replicate (mem_of_getElem? hget)

/-- The input has one value in the image. -/
theorem inputAt_probe (hn : n < sh.N) (hic' : ic' < sh.IC) :
    (probe sh one ic kh kw).inputAt symmetricBlock n oh ow (ic', kh', kw') =
      if sh.RowInside kh' oh ∧ sh.ColInside kw' ow then one.toInt else 0 := by
  by_cases hin : sh.RowInside kh' oh ∧ sh.ColInside kw' ow
  · have hread : (probe sh one ic kh kw).inputAt symmetricBlock n oh ow (ic', kh', kw') = _ :=
      if_pos hin
    obtain ⟨hrow, hcol⟩ := hin
    have hget := load_replicate ((probe sh one ic kh kw).load_input hn hic' hrow hcol)
    rw [hread, if_pos ⟨hrow, hcol⟩, hget]
    cases one <;> decide
  · rw [if_neg hin]
    exact inputAt_of_not_inside _ ⟨rfl, rfl, rfl⟩ hin

theorem nodup_taps (sh : ConvShape) : sh.taps.Nodup := by
  exact nodup_range.product (nodup_range.product nodup_range)

section
variable (htap : (ic, kh, kw) ∈ sh.taps)
include htap

/-- The sum over some of the taps. -/
theorem sum_probe (hn : n < sh.N) (hoc : oc < sh.OC) {l : List (ℕ × ℕ × ℕ)} (hl : l ⊆ sh.taps)
    (hnodup : l.Nodup) :
    (probe sh one ic kh kw).sum symmetricBlock n oc oh ow l =
      if oc = 0 ∧ (ic, kh, kw) ∈ l ∧ sh.RowInside kh oh ∧ sh.ColInside kw ow then one.toInt
      else 0 := by
  have hterms : (l.map fun tap => (probe sh one ic kh kw).inputAt symmetricBlock n oh ow tap *
      (probe sh one ic kh kw).factor symmetricBlock oc tap) =
      l.map fun tap => if tap = (ic, kh, kw) then
        (if oc = 0 ∧ sh.RowInside kh oh ∧ sh.ColInside kw ow then one.toInt else 0) else 0 := by
    apply map_congr_left
    rintro ⟨ic', kh', kw'⟩ hmem
    rw [factor_probe htap hoc (hl hmem), inputAt_probe hn (ConvShape.mem_taps.mp (hl hmem)).1]
    by_cases heq : (ic', kh', kw') = (ic, kh, kw)
    · obtain ⟨rfl, rfl, rfl⟩ : ic' = ic ∧ kh' = kh ∧ kw' = kw := by simpa using heq
      by_cases hfirst : oc = 0
      · simp [hfirst]
      · simp [hfirst]
    · simp [heq]
  have hbias : (probe sh one ic kh kw).bias.getD oc 0 = 0 := by
    show (List.replicate sh.OC (0 : ℤ)).getD oc 0 = 0
    simp [hoc]
  rw [ConvTensors.sum, hbias, zero_add, hterms, PyList.sum_map_ite_of_nodup hnodup]
  by_cases hmem : (ic, kh, kw) ∈ l
  · simp only [hmem, if_true, true_and]
  · simp only [hmem, if_false, false_and, and_false]

theorem noOverflow_probe :
    (probe sh one ic kh kw).NoOverflow symmetricBlock := by
  intro n hn oc hoc oh _ ow _ k _
  rw [sum_probe htap hn hoc (take_subset k _) ((nodup_taps sh).sublist (take_sublist k _))]
  cases one <;> split_ifs <;> decide

theorem accumulator_probe (oh ow : ℕ) :
    (probe sh one ic kh kw).accumulator symmetricBlock 0 0 oh ow =
      if sh.RowInside kh oh ∧ sh.ColInside kw ow then one.toInt else 0 := by
  rw [ConvTensors.accumulator, sum_probe htap sh.n_pos sh.oc_pos (fun _ h => h) (nodup_taps sh)]
  simp only [htap, true_and]
  cases one <;> split_ifs <;> decide

end

end

/-! ### What a run has done -/

section
variable {sh : ConvShape} {x : ConvTensors sh} {q : QuantBlock} {n oc : ℕ} {s' s : PcState} {oh : ℕ}
  {row acc : List ℤ} {w a : ℤ} {l : List ((ℕ × ℕ × ℕ) × ℕ)}

theorem simAddPc_cases {wV : ℤ} {inRow : Option (List ℤ)}
    (h : simAddPc sh.OW s oh wV inRow = .ok s') :
    ∃ row row', inRow = some row ∧ broadcast sh.OW row = .ok row' ∧ s'.inRow = some row ∧
      s'.plane = Function.update s.plane oh (addRow (s.plane oh) row' wV) := by
  cases inRow with
  | none => cases h
  | some row =>
    obtain ⟨row', hrow', heq⟩ := bind_eq_ok_iff.mp h
    cases heq
    exact ⟨row, row', rfl, hrow', rfl, rfl⟩

/-- Where a pass that does not raise has its row from. -/
theorem simStepPc_cases {ic kh kw : ℕ} (h : simStepPc x q n oc s ((ic, kh, kw), oh) = .ok s') :
    ∃ row row', s'.inRow = some row ∧ broadcast sh.OW row = .ok row' ∧
      s'.plane = Function.update s.plane oh
        (addRow (s.plane oh) row' (x.factor q oc (ic, kh, kw))) ∧
      (¬sh.RowInside kh oh ∧ simPadRow x q n ic kh kw oh = .ok row ∨
        sh.RowInside kh oh ∧ s.inRow = some row) := by
  by_cases hin : sh.RowInside kh oh
  · obtain ⟨hlo, hhi⟩ := hin
    rw [simStepPc, if_neg (by omega)] at h
    obtain ⟨row, row', hrow, hrow', hinRow, hplane⟩ := simAddPc_cases h
    exact ⟨row, row', hinRow, hrow', hplane, .inr ⟨⟨hlo, hhi⟩, hrow⟩⟩
  · have hout : sh.ih kh oh < 0 ∨ sh.IH ≤ sh.ih kh oh := by
      rw [ConvShape.RowInside] at hin
      omega
    rw [simStepPc, if_pos hout] at h
    obtain ⟨pad, hpad, h⟩ := bind_eq_ok_iff.mp h
    obtain ⟨row, row', hrow, hrow', hinRow, hplane⟩ := simAddPc_cases h
    cases hrow
    exact ⟨pad, row', hinRow, hrow', hplane, .inl ⟨hin, hpad⟩⟩

theorem length_of_broadcast {n : ℕ} {row' : List ℤ} (h : broadcast n row = .ok row') :
    row'.length = n := by
  rw [broadcast] at h
  split_ifs at h with hlen hone
  · rw [← Except.ok.inj h, hlen]
  · rw [← Except.ok.inj h, length_replicate]

theorem length_addRow (acc row : List ℤ) (w : ℤ) :
    (addRow acc row w).length = min acc.length row.length := by
  simp [addRow]

/-- The elements of a row are `int32`. -/
theorem exists_of_mem_addRow (h : a ∈ addRow acc row w) :
    ∃ b, a = wrap 32 b := by
  obtain ⟨i, hi, rfl⟩ := mem_iff_getElem.mp h
  simp only [addRow, getElem_zipWith]
  exact ⟨_, rfl⟩

theorem wrap_of_mem_addRow (h : a ∈ addRow acc row w) :
    wrap 32 a = a := by
  obtain ⟨b, rfl⟩ := exists_of_mem_addRow h
  exact wrap_wrap

theorem fits_getD_addRow (ow : ℕ) :
    Fits 32 ((addRow acc row w).getD ow 0) := by
  rw [getD_eq_getElem?_getD]
  by_cases how : ow < (addRow acc row w).length
  · rw [getElem?_eq_getElem how]
    obtain ⟨b, hb⟩ := exists_of_mem_addRow (getElem_mem how)
    rw [Option.getD_some, hb]
    exact fits_wrap (by decide) b
  · rw [getElem?_eq_none (by omega)]
    decide

/-- A row without products stays as it is. -/
theorem addRow_zero (hlen : row.length = acc.length) (hacc : ∀ a ∈ acc, wrap 32 a = a) :
    addRow acc row 0 = acc := by
  apply List.ext_getElem
  · simp [addRow, hlen]
  · intro i hi hi'
    simp only [addRow, getElem_zipWith, mul_zero, wrap_add_wrap, add_zero]
    exact hacc _ (getElem_mem hi')

section
variable (h : l.foldlM (simStepPc x q n oc) s = .ok s')
include h

/-- A run of passes that do not touch the row, or have no factor, leaves the row as it is. -/
theorem plane_eq_of_run (hlen : (s.plane oh).length = sh.OW)
    (hwrap : ∀ a ∈ s.plane oh, wrap 32 a = a) (hl : ∀ t ∈ l, t.2 ≠ oh ∨ x.factor q oc t.1 = 0) :
    s'.plane oh = s.plane oh := by
  induction l generalizing s with
  | nil =>
    cases h
    rfl
  | cons t rest ih =>
    obtain ⟨s₁, hstep, hrest⟩ := bind_eq_ok_iff.mp h
    obtain ⟨⟨ic, kh, kw⟩, oh'⟩ := t
    obtain ⟨row, row', -, hrow', hplane, -⟩ := simStepPc_cases hstep
    have hsame : s₁.plane oh = s.plane oh := by
      rw [hplane]
      by_cases hne : oh = oh'
      · subst hne
        have hfactor := (hl _ mem_cons_self).resolve_left fun h => h rfl
        rw [update_self, hfactor, addRow_zero ((length_of_broadcast hrow').trans hlen.symm) hwrap]
      · exact update_of_ne hne _ _
    rw [← hsame]
    exact ih hrest (by rwa [hsame]) (by rwa [hsame]) fun t ht => hl t (mem_cons_of_mem _ ht)

/-- `in_row` after a run whose passes in the padding read nothing. -/
theorem inRow_of_run
    (hl : ∀ t ∈ l, ¬sh.RowInside t.1.2.1 t.2 → ∀ ow < sh.OW, sh.ColInside t.1.2.2 ow) :
    (∀ t ∈ l, sh.RowInside t.1.2.1 t.2) ∧ s'.inRow = s.inRow ∨
      (∃ t ∈ l, ¬sh.RowInside t.1.2.1 t.2) ∧ s'.inRow = some (List.replicate sh.OW 0) := by
  induction l generalizing s with
  | nil =>
    cases h
    exact .inl ⟨fun t ht => absurd ht not_mem_nil, rfl⟩
  | cons t rest ih =>
    obtain ⟨s₁, hstep, hrest⟩ := bind_eq_ok_iff.mp h
    have hrun := ih hrest fun t ht => hl t (mem_cons_of_mem _ ht)
    obtain ⟨row, row', hrow, -, -, ⟨hout, hpad⟩ | ⟨hin, hkept⟩⟩ := simStepPc_cases hstep
    · -- The pass is in the padding, so its row or a later one is there.
      rw [simPadRow_of_inside (hl _ mem_cons_self hout)] at hpad
      refine .inr ⟨⟨_, mem_cons_self, hout⟩, ?_⟩
      rcases hrun with ⟨-, hsame⟩ | ⟨-, hzeros⟩
      · rw [hsame, hrow, ← Except.ok.inj hpad]
      · exact hzeros
    · rcases hrun with ⟨hall, hsame⟩ | ⟨⟨t, ht, hout⟩, hzeros⟩
      · refine .inl ⟨fun t ht => ?_, hsame.trans (hrow.trans hkept.symm)⟩
        rcases mem_cons.mp ht with rfl | ht
        · exact hin
        · exact hall t ht
      · exact .inr ⟨⟨t, mem_cons_of_mem _ ht, hout⟩, hzeros⟩

end

/-- The planes of other channels stay as they are. -/
theorem out_eq_of_run {l : List (ℕ × ℕ)} {s s' : PcOut} {p : ℕ × ℕ}
    (h : l.foldlM (simPlanePc x q) s = .ok s') (hp : p ∉ l) : s'.out p = s.out p := by
  induction l generalizing s with
  | nil =>
    cases h
    rfl
  | cons p' rest ih =>
    rw [mem_cons, not_or] at hp
    obtain ⟨s₁, hstep, hrest⟩ := bind_eq_ok_iff.mp h
    obtain ⟨s₂, -, heq⟩ := bind_eq_ok_iff.mp hstep
    cases heq
    rw [ih hrest hp.2]
    exact update_of_ne hp.1 _ _

end

section
variable {sh : ConvShape} {one : Bool} {ic kh kw oh : ℕ} {inRow : Option (List ℤ)}

/-- The simulator agrees with the kernel on a probe. -/
def ProbeAgrees (sh : ConvShape) (one : Bool) (ic kh kw : ℕ) (inRow : Option (List ℤ)) : Prop :=
  ∃ out, simConv2dS8Pc (probe sh one ic kh kw) symmetricBlock (probeParams sh.OC) inRow = .ok out ∧
    kernelConv2dS8Pc (probe sh one ic kh kw) symmetricBlock (probeParams sh.OC) =
      .ok (storeFrom 0 out)

theorem exists_planes_eq_cons (sh : ConvShape) :
    ∃ rest, List.range sh.N ×ˢ List.range sh.OC = (0, 0) :: rest ∧ (0, 0) ∉ rest := by
  obtain ⟨N, hN⟩ := Nat.exists_eq_succ_of_ne_zero (Nat.ne_of_gt sh.n_pos)
  obtain ⟨OC, hOC⟩ := Nat.exists_eq_succ_of_ne_zero (Nat.ne_of_gt sh.oc_pos)
  have hcons : ∃ rest, List.range sh.N ×ˢ List.range sh.OC = (0, 0) :: rest := by
    rw [hN, hOC, range_succ_eq_map, range_succ_eq_map, product_cons, map_cons]
    exact ⟨_, cons_append⟩
  obtain ⟨rest, hrest⟩ := hcons
  have hnodup : (List.range sh.N ×ˢ List.range sh.OC).Nodup := nodup_range.product nodup_range
  rw [hrest, nodup_cons] at hnodup
  exact ⟨rest, hrest, hnodup.1⟩

variable {pre post : List ((ℕ × ℕ × ℕ) × ℕ)} {ow : ℕ} {row : List ℤ}

/-- The pass of a probe that has a factor: what has been run before it, and what the row must be
after it. -/
theorem probe_pass (hsplit : sh.taps ×ˢ List.range sh.OH = pre ++ ((ic, kh, kw), oh) :: post)
    (h : ProbeAgrees sh one ic kh kw inRow) :
    ∃ s₀ s s' : PcState, s₀.inRow = inRow ∧
      pre.foldlM (simStepPc (probe sh one ic kh kw) symmetricBlock 0 0) s₀ = .ok s ∧
      simStepPc (probe sh one ic kh kw) symmetricBlock 0 0 s ((ic, kh, kw), oh) = .ok s' ∧
      s.plane oh = List.replicate sh.OW 0 ∧
      ∀ ow < sh.OW, (s'.plane oh).getD ow 0 =
        if sh.RowInside kh oh ∧ sh.ColInside kw ow then one.toInt else 0 := by
  obtain ⟨sEnd, hloops, helements⟩ :=
    (simConv2dS8Pc_eq_iff _ ⟨rfl, rfl, rfl⟩ (probeParams sh.OC) inRow).mp h
  -- The first plane is not touched by the loops after it.
  obtain ⟨rest, hplanes, hrest⟩ := exists_planes_eq_cons sh
  rw [hplanes, foldlM_cons] at hloops
  obtain ⟨s₁, hplane, hlater⟩ := bind_eq_ok_iff.mp hloops
  obtain ⟨s₂, hpasses, heq⟩ := bind_eq_ok_iff.mp hplane
  have hout : sEnd.out (0, 0) = s₂.plane := by
    rw [out_eq_of_run hlater hrest]
    cases heq
    simp only [update_self]
  -- The pass with a factor, and the passes around it.
  have hmem : ((ic, kh, kw), oh) ∈ sh.taps ×ˢ List.range sh.OH := by
    rw [hsplit]
    exact mem_append_right _ mem_cons_self
  obtain ⟨htap, hoh⟩ := mem_product.mp hmem
  rw [mem_range] at hoh
  have hnodup : (sh.taps ×ˢ List.range sh.OH).Nodup := (nodup_taps sh).product nodup_range
  rw [hsplit, foldlM_append] at hpasses
  obtain ⟨s, hpre, hpasses⟩ := bind_eq_ok_iff.mp hpasses
  obtain ⟨s', hpass, hpost⟩ := bind_eq_ok_iff.mp hpasses
  have hother : ∀ t ∈ pre ++ post, t.2 ≠ oh ∨
      (probe sh one ic kh kw).factor symmetricBlock 0 t.1 = 0 := by
    intro t ht
    have hne : t ≠ ((ic, kh, kw), oh) := by
      rintro rfl
      rw [hsplit, nodup_middle, nodup_cons] at hnodup
      exact hnodup.1 ht
    have htaps : t ∈ sh.taps ×ˢ List.range sh.OH := by
      rw [hsplit]
      exact perm_middle.mem_iff.mpr (mem_cons_of_mem _ ht)
    by_cases hrow : t.2 = oh
    · right
      rw [factor_probe htap sh.oc_pos (mem_product.mp htaps).1]
      exact if_neg fun h => hne (Prod.ext h.2 hrow)
    · exact .inl hrow
  have hbias : (probe sh one ic kh kw).bias.getD 0 0 = 0 := by
    show (List.replicate sh.OC (0 : ℤ)).getD 0 0 = 0
    simp [sh.oc_pos]
  have hzeros : s.plane oh = List.replicate sh.OW 0 := by
    rw [plane_eq_of_run hpre length_replicate ?_ fun t ht => hother t (mem_append_left _ ht)]
    · show List.replicate sh.OW ((probe sh one ic kh kw).bias.getD 0 0) = _
      rw [hbias]
    · intro a ha
      rw [eq_of_mem_replicate ha]
      exact wrap_eq_self (by decide) ((probe sh one ic kh kw).fits_bias 0)
  refine ⟨_, s, s', rfl, hpre, hpass, hzeros, fun ow how => ?_⟩
  · obtain ⟨row, row', -, hrow', hupdate, -⟩ := simStepPc_cases hpass
    have hsum : s'.plane oh = addRow (List.replicate sh.OW 0) row'
        ((probe sh one ic kh kw).factor symmetricBlock 0 (ic, kh, kw)) := by
      rw [hupdate, update_self, hzeros]
    have hfits : Fits 32 ((s'.plane oh).getD ow 0) := by
      rw [hsum]
      exact fits_getD_addRow ow
    have hlast : s₂.plane oh = s'.plane oh := by
      refine plane_eq_of_run hpost ?_ ?_ fun t ht => hother t (mem_append_right _ ht)
      · rw [hsum, length_addRow, length_replicate, length_of_broadcast hrow', min_self]
      · rw [hsum]
        exact fun a => wrap_of_mem_addRow
    have htuple : (0, 0, oh, ow) ∈ sh.outputs :=
      ConvShape.mem_outputs.mpr ⟨sh.n_pos, sh.oc_pos, hoh, how⟩
    obtain ⟨v, hsim, hkernel⟩ := helements _ htuple
    have hmult : (probeParams sh.OC).multiplier.getD 0 0 = 2 ^ 31 - 1 := by
      show (List.replicate sh.OC (2 ^ 31 - 1 : ℤ)).getD 0 0 = _
      simp [sh.oc_pos]
    have hshift : (probeParams sh.OC).shift.getD 0 0 = 0 := by
      show (List.replicate sh.OC (0 : ℤ)).getD 0 0 = _
      simp [sh.oc_pos]
    rw [hmult, hshift, hout, hlast] at hsim
    rw [hmult, hshift, accumulator_probe htap] at hkernel
    refine eq_of_probe_element hfits ?_ hsim hkernel
    cases one <;> split_ifs <;> simp

/-- What a pass with the factor one makes of zeros. -/
theorem getD_addRow_one (hlen : row.length = sh.OW) (how : ow < sh.OW) :
    (addRow (List.replicate sh.OW 0) row 1).getD ow 0 = wrap 32 (row.getD ow 0) := by
  have hzero : (List.replicate sh.OW (0 : ℤ))[ow]? = some 0 := by simp [how]
  have hget : row[ow]? = some row[ow] := getElem?_eq_getElem (by omega)
  rw [addRow, getD_eq_getElem?_getD, getElem?_zipWith, hzero, hget, getD_eq_getElem?_getD, hget]
  show wrap 32 (0 + wrap 32 (row[ow] * 1)) = wrap 32 row[ow]
  rw [zero_add, wrap_wrap, mul_one]

/-- The row that the pass of a probe has added. -/
theorem probe_row (hsplit : sh.taps ×ˢ List.range sh.OH = pre ++ ((ic, kh, kw), oh) :: post)
    (h : ProbeAgrees sh one ic kh kw inRow) :
    ∃ (s₀ s : PcState) (row row' : List ℤ), s₀.inRow = inRow ∧
      pre.foldlM (simStepPc (probe sh one ic kh kw) symmetricBlock 0 0) s₀ = .ok s ∧
      (¬sh.RowInside kh oh ∧
          simPadRow (probe sh one ic kh kw) symmetricBlock 0 ic kh kw oh = .ok row ∨
        sh.RowInside kh oh ∧ s.inRow = some row) ∧
      broadcast sh.OW row = .ok row' ∧
      ∀ ow < sh.OW, wrap 32 (row'.getD ow 0) =
        if sh.RowInside kh oh ∧ sh.ColInside kw ow then one.toInt else 0 := by
  obtain ⟨s₀, s, s', hinit, hrun, hpass, hzeros, hvalue⟩ := probe_pass hsplit h
  obtain ⟨row, row', -, hrow', hupdate, hsource⟩ := simStepPc_cases hpass
  refine ⟨s₀, s, row, row', hinit, hrun, hsource, hrow', fun ow how => ?_⟩
  have htap : (ic, kh, kw) ∈ sh.taps := by
    refine (mem_product.mp (?_ : ((ic, kh, kw), oh) ∈ sh.taps ×ˢ List.range sh.OH)).1
    rw [hsplit]
    exact mem_append_right _ mem_cons_self
  have hfactor : (probe sh one ic kh kw).factor symmetricBlock 0 (ic, kh, kw) = 1 := by
    rw [factor_probe htap sh.oc_pos htap]
    simp
  rw [← hvalue ow how, hupdate, update_self, hzeros, hfactor,
    getD_addRow_one (length_of_broadcast hrow') how]

theorem lt_of_pyIndex {dim k : ℕ} {i : ℤ} (h : pyIndex dim i = .ok k) : k < dim := by
  rw [pyIndex] at h
  split_ifs at h
  · have hk := Except.ok.inj h
    omega
  · have hk := Except.ok.inj h
    omega

/-- A read that NumPy allows gives a one, from wherever in the image it is. -/
theorem in4d_probe {n ic' : ℕ} {ih iw v : ℤ} (hn : n < sh.N) (hic : ic' < sh.IC)
    (h : (probe sh true ic kh kw).in4d n ic' ih iw = .ok v) : v = 1 := by
  obtain ⟨r, hr, h⟩ := bind_eq_ok_iff.mp h
  obtain ⟨c, hc, h⟩ := bind_eq_ok_iff.mp h
  have hlt : ((n * sh.IC + ic') * sh.IH + r) * sh.IW + c < sh.N * sh.IC * sh.IH * sh.IW :=
    PyList.mul_add_lt (PyList.mul_add_lt (PyList.mul_add_lt hn hic) (lt_of_pyIndex hr))
      (lt_of_pyIndex hc)
  rw [← Except.ok.inj h]
  show (List.replicate _ (1 : ℤ)).getD _ 0 = 1
  rw [getD_eq_getElem?_getD, getElem?_replicate, if_pos hlt]
  rfl

/-- What a read of the padding gives on an input of ones. -/
theorem simPadRow_probe (hic : ic < sh.IC) (how : ow < sh.OW) (hcol : ¬sh.ColInside kw ow)
    (h : simPadRow (probe sh true ic kh kw) symmetricBlock 0 ic kh kw oh = .ok row) :
    row.getD ow 0 = 1 := by
  have hrows := mapM_eq_ok_iff.mp h
  have how' : ow < (List.range sh.OW).length := by rwa [length_range]
  have hlt : ow < row.length := hrows.length_eq ▸ how'
  have hread := hrows.get how' hlt
  have hout : sh.iw kw ow < 0 ∨ sh.IW ≤ sh.iw kw ow := by
    rw [ConvShape.ColInside] at hcol
    omega
  simp only [get_eq_getElem, getElem_range, if_pos hout] at hread
  obtain ⟨v, hv, heq⟩ := bind_eq_ok_iff.mp hread
  rw [getD_eq_getElem?_getD, getElem?_eq_getElem hlt, Option.getD_some,
    ← Except.ok.inj heq, in4d_probe sh.n_pos hic hv]
  decide

theorem eq_replicate_of_broadcast (r : InRow) {row' : List ℤ}
    (hrow' : broadcast sh.OW r.values = .ok row') (h : ∀ ow < sh.OW, wrap 32 (row'.getD ow 0) = 0) :
    row' = List.replicate sh.OW 0 := by
  have hlen := length_of_broadcast hrow'
  have hmem : ∀ v ∈ row', Fits 32 v := by
    rw [broadcast] at hrow'
    split_ifs at hrow' with hfull hone
    · rw [← Except.ok.inj hrow']
      exact r.fits
    · intro v hv
      rw [← Except.ok.inj hrow'] at hv
      obtain ⟨a, ha⟩ := length_eq_one_iff.mp hone
      rw [eq_of_mem_replicate hv, ha]
      exact r.fits a (by rw [ha]; exact mem_singleton_self a)
  apply eq_replicate_iff.mpr
  refine ⟨hlen, fun v hv => ?_⟩
  obtain ⟨ow, how, rfl⟩ := mem_iff_getElem.mp hv
  have hzero := h ow (by omega)
  rw [getD_eq_getElem?_getD, getElem?_eq_getElem how, Option.getD_some,
    wrap_eq_self (by decide) (hmem _ hv)] at hzero
  exact hzero

/-- If the simulator agrees with the kernel on all probes, the shape is harmless. -/
theorem harmless_of_probes {inRow : Option InRow}
    (h : ∀ one ic kh kw, (ic, kh, kw) ∈ sh.taps →
      ProbeAgrees sh one ic kh kw (inRow.map InRow.values)) : Harmless sh inRow := by
  have hsplits : ∀ {ic kh kw oh}, (ic, kh, kw) ∈ sh.taps → oh < sh.OH →
      ∃ pre post, sh.taps ×ˢ List.range sh.OH = pre ++ ((ic, kh, kw), oh) :: post :=
    fun htap hoh => append_of_mem (mem_product.mpr ⟨htap, mem_range.mpr hoh⟩)
  -- No tap reads the padding outside of the columns: the kernel adds nothing there.
  have hpad : ∀ ic kh kw oh, (ic, kh, kw) ∈ sh.taps → oh < sh.OH → ¬sh.RowInside kh oh →
      ∀ ow < sh.OW, sh.ColInside kw ow := by
    intro ic kh kw oh htap hoh hout ow how
    by_contra hcol
    obtain ⟨pre, post, hsplit⟩ := hsplits htap hoh
    obtain ⟨s₀, s, row, row', -, -, hsource, hrow', hvalue⟩ :=
      probe_row hsplit (h true ic kh kw htap)
    have hread := hsource.resolve_right fun hin => hout hin.1
    have hone := simPadRow_probe (ConvShape.mem_taps.mp htap).1 how hcol hread.2
    have hlen := (mapM_eq_ok_iff.mp hread.2).length_eq
    rw [length_range] at hlen
    rw [broadcast_of_length hlen.symm] at hrow'
    have hzero := hvalue ow how
    rw [if_neg fun h => hcol h.2, ← Except.ok.inj hrow', hone] at hzero
    revert hzero
    decide
  intro ic kh kw oh htap hoh
  by_cases hin : sh.RowInside kh oh
  · right
    obtain ⟨pre, post, hsplit⟩ := hsplits htap hoh
    have hpasses : ∀ t ∈ pre, ¬sh.RowInside t.1.2.1 t.2 → ∀ ow < sh.OW, sh.ColInside t.1.2.2 ow := by
      intro t ht hout
      have hmem : t ∈ sh.taps ×ˢ List.range sh.OH := by
        rw [hsplit]
        exact mem_append_left _ ht
      obtain ⟨htap', hoh'⟩ := mem_product.mp hmem
      exact hpad _ _ _ _ htap' (mem_range.mp hoh') hout
    -- The row that a probe adds is the same for both inputs.
    have hrows : ∀ one : Bool, ∃ row row', (∀ ow < sh.OW, wrap 32 (row'.getD ow 0) =
        if sh.RowInside kh oh ∧ sh.ColInside kw ow then one.toInt else 0) ∧
        broadcast sh.OW row = .ok row' ∧
        ((∀ t ∈ pre, sh.RowInside t.1.2.1 t.2) ∧ inRow.map InRow.values = some row ∨
          (∃ t ∈ pre, ¬sh.RowInside t.1.2.1 t.2) ∧ row = List.replicate sh.OW 0) := by
      intro one
      obtain ⟨s₀, s, row, row', hinit, hrun, hsource, hrow', hvalue⟩ :=
        probe_row hsplit (h one ic kh kw htap)
      obtain ⟨-, hkept⟩ := hsource.resolve_left fun hout => hout.1 hin
      refine ⟨row, row', hvalue, hrow', ?_⟩
      rcases inRow_of_run hrun hpasses with ⟨hall, hsame⟩ | ⟨hex, hzeros⟩
      · exact .inl ⟨hall, by rw [← hinit, ← hsame, hkept]⟩
      · exact .inr ⟨hex, Option.some.inj (hkept.symm.trans hzeros)⟩
    obtain ⟨row, row', hvalue, hrow', hsource⟩ := hrows true
    obtain ⟨other, other', hvalue', hother', hsource'⟩ := hrows false
    have hsame : row = other := by
      rcases hsource with ⟨hall, hleft⟩ | ⟨⟨t, ht, hout⟩, hzeros⟩
      · rcases hsource' with ⟨-, hleft'⟩ | ⟨⟨t, ht, hout⟩, -⟩
        · exact Option.some.inj (hleft.symm.trans hleft')
        · exact absurd (hall t ht) hout
      · rcases hsource' with ⟨hall, -⟩ | ⟨-, hzeros'⟩
        · exact absurd (hall t ht) hout
        · exact hzeros.trans hzeros'.symm
    rw [← hsame, hrow'] at hother'
    -- Both inputs give the same, so the kernel adds nothing here.
    have hcols : ∀ ow < sh.OW, ¬sh.ColInside kw ow := by
      intro ow how hcol
      have heq := (hvalue ow how).symm.trans (Except.ok.inj hother' ▸ hvalue' ow how)
      rw [if_pos ⟨hin, hcol⟩, if_pos ⟨hin, hcol⟩] at heq
      exact absurd heq (by decide)
    have hzero : ∀ ow < sh.OW, wrap 32 (row'.getD ow 0) = 0 := by
      intro ow how
      rw [hvalue ow how, if_neg fun h => hcols ow how h.2]
    refine ⟨hin, hcols, ?_⟩
    rcases hsource with ⟨-, hleft⟩ | ⟨⟨t, ht, hout⟩, -⟩
    · obtain ⟨r, hr, rfl⟩ := Option.map_eq_some_iff.mp hleft
      exact ⟨r, hr, by rw [hrow', eq_replicate_of_broadcast r hrow' hzero]⟩
    · -- A pass in the padding would have all columns of its filter row inside.
      have hmem : t ∈ sh.taps ×ˢ List.range sh.OH := by
        rw [hsplit]
        exact mem_append_left _ ht
      obtain ⟨htap', hoh'⟩ := mem_product.mp hmem
      obtain ⟨hic, hkh, -⟩ := ConvShape.mem_taps.mp htap'
      have htap'' : (t.1.1, t.1.2.1, kw) ∈ sh.taps :=
        ConvShape.mem_taps.mpr ⟨hic, hkh, (ConvShape.mem_taps.mp htap).2.2⟩
      have hcol := hpad _ _ _ _ htap'' (mem_range.mp hoh') hout 0 (Nat.succ_pos _)
      exact absurd hcol (hcols 0 (Nat.succ_pos _))
  · exact .inl ⟨hin, hpad ic kh kw oh htap hoh hin⟩

end

/-- The linear op is mirrored. The convolution is mirrored, on all tensors and parameters without an
overflow, iff its shape is harmless after what the last convolution has left in `in_row`. -/
theorem simPc_eq_kernel_iff (sh : ConvShape) (inRow : Option InRow) :
    (∀ (M K N : ℕ) (x : LinearTensors M K N) (q : QuantBlock) (pc : PerChannel N), q.Symmetric →
      ∃ out, simLinearS8Pc x q pc = .ok out ∧ kernelLinearS8Pc x q pc = .ok (storeFrom 0 out)) ∧
    ((∀ (x : ConvTensors sh) (q : QuantBlock) (pc : PerChannel sh.OC), q.Symmetric →
      x.NoOverflow q → ∃ out, simConv2dS8Pc x q pc (inRow.map InRow.values) = .ok out ∧
        kernelConv2dS8Pc x q pc = .ok (storeFrom 0 out)) ↔ Harmless sh inRow) := by
  refine ⟨fun M K N x q pc hq => simLinearS8Pc_eq_kernel x pc hq, ⟨fun h => ?_, ?_⟩⟩
  · apply harmless_of_probes
    intro one ic kh kw htap
    exact h _ _ _ ⟨rfl, rfl, rfl⟩ (noOverflow_probe htap)
  · intro hsh x q pc hq _
    exact simConv2dS8Pc_of_harmless x hq hsh pc

/-- An unpadded convolution raises before the first op of its kind has bound `in_row`. -/
theorem conv2dS8Pc_unbound_differs : ¬((∀ (M K N : ℕ) (x : LinearTensors M K N) (q : QuantBlock)
      (pc : PerChannel N), q.Symmetric →
        ∃ out, simLinearS8Pc x q pc = .ok out ∧ kernelLinearS8Pc x q pc = .ok (storeFrom 0 out)) ∧
    ∀ (sh : ConvShape) (inRow : Option InRow) (x : ConvTensors sh) (q : QuantBlock)
      (pc : PerChannel sh.OC), q.Symmetric → x.NoOverflow q →
        ∃ out, simConv2dS8Pc x q pc (inRow.map InRow.values) = .ok out ∧
          kernelConv2dS8Pc x q pc = .ok (storeFrom 0 out)) := by
  rintro ⟨-, h⟩
  have hraises : simConv2dS8Pc (probe pointShape true 0 0 0) symmetricBlock (probeParams 1) none =
      .error .unboundLocalError := by decide
  obtain ⟨out, hsim, -⟩ := h pointShape none (probe pointShape true 0 0 0) symmetricBlock
    (probeParams 1) ⟨rfl, rfl, rfl⟩ (noOverflow_probe (by decide))
  rw [Option.map_none, hraises] at hsim
  cases hsim

end ModelBlaster.Extract

import ModelBlaster.Kernels.RvvReduce

/-!
# The matrix kernel

`kernel_conv2d_s8` of the algorithm `gemmini_im2col_full_C`. The input is copied into a workspace
with its channels innermost. A tile of `DIM` elements of the output is a matrix of patches, a row for
each element; the rows behind the last element are zero. The accelerator multiplies it with the
weight, and the products are requantised one by one.

## Main definitions

* `TiledMatmul`: what the accelerator stores, and `TiledMatmul.Exact`: that it is the product;
* `gemminiAccelerated`, `gemminiConv2dS8`: the path through the accelerator, and the kernel.

## Main results

* `exists_gemminiAccelerated_iff`: the path stays in its workspaces iff they are large enough;
* `computes_gemminiAccelerated`: it computes the output;
* `gemminiConv2dS8_eq_reference`: the kernel leaves what the reference does.
-/

namespace ModelBlaster.Kernels

open Extract TwosComplement List Fallible

/-! ### The accelerator -/

/-- `tiled_matmul_auto` with `full_C`: the elements that it stores, from the sizes of the matrices,
`A`, `B` and the row `D`. -/
abbrev TiledMatmul : Type := ℕ → ℕ → ℕ → List ℤ → List ℤ → Option (List ℤ) → ℕ → ℕ → ℤ

/-- The elements are those of `A * B + D`, with the row `D` repeated, in 32 bits. -/
def TiledMatmul.Exact (mm : TiledMatmul) : Prop :=
  ∀ dimI dimJ dimK a b d, ∀ i < dimI, ∀ j < dimJ, mm dimI dimJ dimK a b d i j =
    wrap 32 ((d.map (·.getD j 0)).getD 0 +
      ((List.range dimK).map fun k => a.getD (i * dimK + k) 0 * b.getD (k * dimJ + j) 0).sum)

/-! ### Workspaces -/

/-- The sizes of the workspaces. -/
structure GemminiSizes where
  wsBytes : ℕ
  im2colElems : ℕ
  accElems : ℕ

/-- `WS_BYTES`, `IM2COL_ELEMS` and `ACC_ELEMS` -/
def gemminiSizes (dim : ℕ) : GemminiSizes := ⟨512 * 1024, dim * 256 * 9, dim * 256⟩

/-- The workspaces, as an earlier call has left them. -/
structure GemminiWorkspaces (sizes : GemminiSizes) where
  wsInput : List ℤ
  wsIm2col : List ℤ
  wsAccOut : List ℤ
  wsInput_length : wsInput.length = sizes.wsBytes
  wsIm2col_length : wsIm2col.length = sizes.im2colElems
  wsAccOut_length : wsAccOut.length = sizes.accElems

/-! ### The kernel -/

section
variable {sh : ConvShape} (a : ConvArgs sh) (q : QuantBlock) (r : RequantParams) (dim : ℕ)
  (mm : TiledMatmul)

/-- The test for the scalar loops. -/
def GemminiFallback (sizes : GemminiSizes) (sh : ConvShape) (q : QuantBlock) (dim : ℕ) : Prop :=
  q.inputOffset ≠ 0 ∨ q.filterOffset ≠ 0 ∨ sizes.wsBytes < sh.N * sh.IH * sh.IW * sh.IC ∨
    sizes.wsBytes < tapCount sh * sh.OC ∨ sizes.wsBytes < sh.N * sh.OH * sh.OW * sh.OC ∨
    sizes.im2colElems < tapCount sh * dim ∨ sizes.accElems < sh.OC * dim

instance (sizes : GemminiSizes) : Decidable (GemminiFallback sizes sh q dim) :=
  inferInstanceAs (Decidable (_ ∨ _ ∨ _ ∨ _ ∨ _ ∨ _ ∨ _))

/-- The place of an element of the input, with the channels innermost. -/
def nhwcIndex (sh : ConvShape) : ℕ × ℕ × ℕ × ℕ → ℕ
  | (n, h, w, c) => ((n * sh.IH + h) * sh.IW + w) * sh.IC + c

/-- The elements of the input, in the order of the workspace. -/
def nhwcElements (sh : ConvShape) : List (ℕ × ℕ × ℕ × ℕ) :=
  List.range sh.N ×ˢ List.range sh.IH ×ˢ List.range sh.IW ×ˢ List.range sh.IC

/-- `ws_input` -/
def transposeInput (wsInput : List ℤ) : Except CFault (List ℤ) := do
  let writes ← (nhwcElements sh).mapM fun p => do
    let v ← Extract.load a.input (((p.1 * sh.IC + p.2.2.2) * sh.IH + p.2.1) * sh.IW + p.2.2.1 : ℕ)
    return (nhwcIndex sh p, v)
  runWrites wsInput writes

/-- `n_idx`, `oh_idx` and `ow_idx` -/
def outPlace (sh : ConvShape) (idx : ℕ) : ℕ × ℕ × ℕ :=
  (idx / (sh.OH * sh.OW), idx / sh.OW % sh.OH, idx % sh.OW)

/-- The cells of a row, in their order. -/
def cells (sh : ConvShape) : List (ℕ × ℕ × ℕ) :=
  List.range sh.KH ×ˢ List.range sh.KW ×ˢ List.range sh.IC

/-- The place of a cell in its row. -/
def cellIndex (sh : ConvShape) : ℕ × ℕ × ℕ → ℕ
  | (kh, kw, c) => (kh * sh.KW + kw) * sh.IC + c

/-- What is stored in a cell. -/
def cellValue (sh : ConvShape) (wsInput : List ℤ) : ℕ × ℕ × ℕ → ℕ × ℕ × ℕ → Except CFault ℤ
  | (n, oh, ow), (kh, kw, c) =>
    if (0 ≤ sh.ih kh oh ∧ sh.ih kh oh < sh.IH) ∧ 0 ≤ sh.iw kw ow ∧ sh.iw kw ow < sh.IW then
      Extract.load wsInput (((n * sh.IH + sh.ih kh oh) * sh.IW + sh.iw kw ow) * sh.IC + c)
    else .ok 0

/-- The stores of a row of the tile that begins at the element `tile`. -/
def rowWrites (sh : ConvShape) (wsInput : List ℤ) (tile rows i : ℕ) :
    Except CFault (List (ℕ × ℤ)) :=
  if rows ≤ i then
    .ok ((List.range (tapCount sh)).map fun k => (i * tapCount sh + k, 0))
  else
    (cells sh).mapM fun cell => do
      let v ← cellValue sh wsInput (outPlace sh (tile + i)) cell
      return (i * tapCount sh + cellIndex sh cell, v)

/-- `ws_im2col` -/
def buildIm2col (sh : ConvShape) (dim : ℕ) (wsInput wsIm2col : List ℤ) (tile rows : ℕ) :
    Except CFault (List ℤ) := do
  let writes ← (List.range dim).mapM (rowWrites sh wsInput tile rows)
  runWrites wsIm2col writes.flatten

/-- `total_out` -/
def totalOut (sh : ConvShape) : ℕ := sh.N * sh.OH * sh.OW

/-- `tile_rows` -/
def tileRows (sh : ConvShape) (dim tile : ℕ) : ℕ := min (totalOut sh - tile) dim

/-- `ws_im2col` and `ws_acc_out`, and the stores to the output so far. -/
structure GemminiState where
  wsIm2col : List ℤ
  wsAccOut : List ℤ
  writes : List (ℕ × ℤ)

/-- A tile. The matrix `b` is what the rows are multiplied with, and `addr` is where the elements of
the output are stored. -/
def gemminiTile (addr : ℕ × ℕ × ℕ × ℕ → ℕ) (wsInput b : List ℤ) (s : GemminiState) (tile : ℕ) :
    Except CFault GemminiState := do
  let rows := tileRows sh dim tile
  let wsIm2col ← buildIm2col sh dim wsInput s.wsIm2col tile rows
  let wsAccOut ← runWrites s.wsAccOut ((List.range dim ×ˢ List.range sh.OC).map fun p =>
    (p.1 * sh.OC + p.2, mm dim sh.OC (tapCount sh) wsIm2col b a.bias p.1 p.2))
  let writes ← (List.range rows ×ˢ List.range sh.OC).mapM fun p => do
    let acc ← Extract.load wsAccOut (p.1 * sh.OC + p.2 : ℕ)
    let x ← elementOf q r acc
    let place := outPlace sh (tile + p.1)
    return (addr (place.1, p.2, place.2), x)
  return ⟨wsIm2col, wsAccOut, s.writes ++ writes⟩

/-- `tile_i`: where the tiles begin. -/
def gemminiTiles (sh : ConvShape) (dim : ℕ) : List ℕ :=
  (List.range ((totalOut sh + dim - 1) / dim)).map (dim * ·)

/-- The tiles, one after the other. -/
def gemminiLoop (addr : ℕ × ℕ × ℕ × ℕ → ℕ) (wsInput b wsIm2col wsAccOut : List ℤ) :
    Except CFault GemminiState :=
  (gemminiTiles sh dim).foldlM (gemminiTile a q r dim mm addr wsInput b) ⟨wsIm2col, wsAccOut, []⟩

variable {sizes : GemminiSizes} (ws : GemminiWorkspaces sizes)

/-- The path through the accelerator. -/
def gemminiAccelerated : Except CFault (List (ℕ × ℤ)) := do
  let wsInput ← transposeInput a ws.wsInput
  let s ← gemminiLoop a q r dim mm (outAddr sh) wsInput a.weight ws.wsIm2col ws.wsAccOut
  return s.writes

/-- `kernel_conv2d_s8` -/
def gemminiConv2dS8 : Except CFault (List (ℕ × ℤ)) :=
  if GemminiFallback sizes sh q dim then referenceConv2dS8 a q r .hwio
  else gemminiAccelerated a q r dim mm ws

end

/-! ### Orders -/

section
variable {sh : ConvShape}

theorem length_nhwcElements : (nhwcElements sh).length = sh.N * sh.IH * sh.IW * sh.IC := by
  simp [nhwcElements, length_product, Nat.mul_assoc]

/-- The elements of the workspace are addressed in their order. -/
theorem map_nhwcIndex : (nhwcElements sh).map (nhwcIndex sh) =
    List.range (nhwcElements sh).length := by
  rw [length_nhwcElements, ← map_id (List.range _), PyList.map_range_mul, PyList.flatMap_range_mul,
    PyList.flatMap_range_mul]
  simp only [nhwcElements, PyList.map_product]
  rfl

/-- The cells of a row are numbered in their order. -/
theorem map_cellIndex : (cells sh).map (cellIndex sh) = List.range (cells sh).length := by
  have hlen : (cells sh).length = sh.KH * sh.KW * sh.IC := by
    simp [cells, length_product, Nat.mul_assoc]
  rw [hlen, ← map_id (List.range _), PyList.map_range_mul, PyList.flatMap_range_mul]
  simp only [cells, PyList.map_product]
  rfl

theorem length_cells : (cells sh).length = tapCount sh := by
  simp only [cells, length_product, length_range, tapCount]
  ring

/-- The tap of a cell. -/
def tapOfCell : ℕ × ℕ × ℕ → ℕ × ℕ × ℕ
  | (kh, kw, c) => (c, kh, kw)

/-- The cells of a row are the taps in another order. -/
theorem map_tapOfCell_perm (sh : ConvShape) : ((cells sh).map tapOfCell).Perm sh.taps := by
  apply (perm_ext_iff_of_nodup _ _).mpr
  · rintro ⟨c, kh, kw⟩
    simp only [cells, tapOfCell, mem_map, Prod.exists, ConvShape.mem_taps]
    simp
    tauto
  · apply List.Nodup.map
    · rintro ⟨kh, kw, c⟩ ⟨kh', kw', c'⟩ h
      simp only [tapOfCell, Prod.mk.injEq] at h ⊢
      tauto
    · exact (nodup_range.product (nodup_range.product nodup_range))
  · exact (nodup_range.product (nodup_range.product nodup_range))

variable {idx dim : ℕ}

/-- The place of an element is within the output. -/
theorem outPlace_bounds (sh : ConvShape) (h : idx < totalOut sh) : (outPlace sh idx).1 < sh.N ∧
    (outPlace sh idx).2.1 < sh.OH ∧ (outPlace sh idx).2.2 < sh.OW := by
  have hpos : 0 < sh.OH * sh.OW := by
    rw [totalOut, Nat.mul_assoc] at h
    exact Nat.pos_of_mul_pos_left (Nat.zero_lt_of_lt h)
  refine ⟨?_, Nat.mod_lt _ (Nat.pos_of_mul_pos_right hpos), Nat.mod_lt _ (Nat.pos_of_mul_pos_left hpos)⟩
  rw [outPlace, Nat.div_lt_iff_lt_mul hpos, ← Nat.mul_assoc]
  exact h

/-- Every place of the output is that of an element. -/
theorem exists_outPlace {n oh ow : ℕ} (hn : n < sh.N) (hoh : oh < sh.OH) (how : ow < sh.OW) :
    ∃ idx < totalOut sh, outPlace sh idx = (n, oh, ow) := by
  refine ⟨(n * sh.OH + oh) * sh.OW + ow, PyList.mul_add_lt (PyList.mul_add_lt hn hoh) how, ?_⟩
  have hrow : ((n * sh.OH + oh) * sh.OW + ow) / sh.OW = n * sh.OH + oh := by
    rw [Nat.mul_comm, Nat.mul_add_div (by omega), Nat.div_eq_of_lt how, Nat.add_zero]
  have hcol : ((n * sh.OH + oh) * sh.OW + ow) % sh.OW = ow := by
    rw [Nat.mul_comm, Nat.mul_add_mod, Nat.mod_eq_of_lt how]
  have himage : (n * sh.OH + oh) / sh.OH = n := by
    rw [Nat.mul_comm, Nat.mul_add_div (by omega), Nat.div_eq_of_lt hoh, Nat.add_zero]
  have hmod : (n * sh.OH + oh) % sh.OH = oh := by
    rw [Nat.mul_comm, Nat.mul_add_mod, Nat.mod_eq_of_lt hoh]
  rw [outPlace, hrow, hcol, hmod, Nat.mul_comm sh.OH, ← Nat.div_div_eq_div_mul, hrow, himage]

theorem lt_of_mem_gemminiTiles {tile : ℕ} (h : tile ∈ gemminiTiles sh dim) :
    tile < totalOut sh := by
  obtain ⟨i, hi, rfl⟩ := mem_map.mp h
  have hlt := mem_range.mp hi
  rcases Nat.eq_zero_or_pos dim with rfl | hdim
  · rw [Nat.div_zero] at hlt
    exact absurd hlt (Nat.not_lt_zero i)
  · have hle := (Nat.le_div_iff_mul_le hdim).mp hlt
    rw [Nat.succ_mul, Nat.mul_comm] at hle
    omega

/-- Every element of the output is in a tile. -/
theorem exists_gemminiTile (hdim : 0 < dim) (h : idx < totalOut sh) :
    ∃ tile ∈ gemminiTiles sh dim, ∃ i < tileRows sh dim tile, tile + i = idx := by
  have hdiv := Nat.div_add_mod idx dim
  have hmod := Nat.mod_lt idx hdim
  refine ⟨dim * (idx / dim), mem_map_of_mem (mem_range.mpr ?_), idx % dim, ?_, hdiv⟩
  · rw [Nat.lt_iff_add_one_le, Nat.le_div_iff_mul_le hdim, Nat.add_mul, Nat.mul_comm, Nat.one_mul]
    omega
  · rw [tileRows]
    omega

end

/-! ### Workspaces -/

/-- Writes to places of their own leave their values. -/
theorem runWrites_map {ι : Type} (l : List ι) (addr : ι → ℕ) (val : ι → ℤ) (out : List ℤ)
    (hlt : ∀ e ∈ l, addr e < out.length) (hinj : ∀ e ∈ l, ∀ e' ∈ l, addr e = addr e' → e = e') :
    ∃ out', runWrites out (l.map fun e => (addr e, val e)) = .ok out' ∧
      out'.length = out.length ∧ ∀ e ∈ l, out'[addr e]? = some (val e) := by
  have hbounds : ∀ w ∈ l.map fun e => (addr e, val e), w.1 < out.length := by
    intro w hw
    obtain ⟨e, he, rfl⟩ := mem_map.mp hw
    exact hlt e he
  have hagree : ∀ w ∈ l.map fun e => (addr e, val e), ∀ w' ∈ l.map fun e => (addr e, val e),
      w.1 = w'.1 → w.2 = w'.2 := by
    intro w hw w' hw' heq
    obtain ⟨e, he, rfl⟩ := mem_map.mp hw
    obtain ⟨e', he', rfl⟩ := mem_map.mp hw'
    exact congrArg val (hinj e he e' he' heq)
  obtain ⟨out', hrun, hlen, hget, -⟩ := runWrites_of_agree out hbounds hagree
  exact ⟨out', hrun, hlen, fun e he => hget _ (mem_map_of_mem he)⟩

/-- Writes that succeed are within the buffer. -/
theorem lt_of_runWrites {writes : List (ℕ × ℤ)} {out out' : List ℤ}
    (h : runWrites out writes = .ok out') : ∀ w ∈ writes, w.1 < out.length := by
  induction writes generalizing out with
  | nil => exact fun w hw => absurd hw not_mem_nil
  | cons w rest ih =>
    rw [runWrites, foldlM_cons, bind_eq_ok_iff] at h
    obtain ⟨mid, hhead, hrest⟩ := h
    rw [writeTo] at hhead
    split_ifs at hhead with hlt
    cases hhead
    intro w' hw'
    rcases mem_cons.mp hw' with rfl | hw'
    · exact hlt
    · exact (ih hrest w' hw').trans_eq length_set

section
variable {sh : ConvShape} (a : ConvArgs sh) {q : QuantBlock} {dim : ℕ}

/-- The byte that a tap meets, or zero. -/
def byteAt (n oh ow : ℕ) : ℕ × ℕ × ℕ → ℤ
  | (ic, kh, kw) =>
    if sh.RowInside kh oh ∧ sh.ColInside kw ow then
      a.input.getD (((n * sh.IC + ic) * sh.IH + (sh.ih kh oh).toNat) * sh.IW +
        (sh.iw kw ow).toNat) 0
    else 0

/-- Without an offset, the input of a tap is the byte. -/
theorem inputAt_eq_byteAt (layout : WeightLayout) (hq : q.inputOffset = 0) (n oh ow : ℕ)
    (tap : ℕ × ℕ × ℕ) : (a.tensors layout).inputAt q n oh ow tap = byteAt a n oh ow tap := by
  obtain ⟨ic, kh, kw⟩ := tap
  rw [ConvTensors.inputAt, byteAt, hq]
  split_ifs with hin
  · have hfits := fits_getD a.input_fits (((n * sh.IC + ic) * sh.IH + (sh.ih kh oh).toNat) * sh.IW +
      (sh.iw kw ow).toNat)
    have hwide : Fits 32 (a.input.getD (((n * sh.IC + ic) * sh.IH + (sh.ih kh oh).toNat) * sh.IW +
        (sh.iw kw ow).toNat) 0) := by
      rw [Fits] at hfits ⊢
      omega
    rw [add_zero]
    exact wrap_eq_self (by decide) hwide
  · rfl

/-- The workspace of the input, as the tiles read it. -/
def HoldsInput (ws : List ℤ) : Prop :=
  ∀ p ∈ nhwcElements sh, ws[nhwcIndex sh p]? =
    some (a.input.getD (((p.1 * sh.IC + p.2.2.2) * sh.IH + p.2.1) * sh.IW + p.2.2.1) 0)

theorem mem_nhwcElements {p : ℕ × ℕ × ℕ × ℕ} : p ∈ nhwcElements sh ↔
    p.1 < sh.N ∧ p.2.1 < sh.IH ∧ p.2.2.1 < sh.IW ∧ p.2.2.2 < sh.IC := by
  obtain ⟨n, h, w, c⟩ := p
  simp [nhwcElements]

/-- The stores of the transposition. -/
theorem transposeInput_eq (wsInput : List ℤ) : transposeInput a wsInput = runWrites wsInput
    ((nhwcElements sh).map fun p => (nhwcIndex sh p,
      a.input.getD (((p.1 * sh.IC + p.2.2.2) * sh.IH + p.2.1) * sh.IW + p.2.2.1) 0)) := by
  have hload : (nhwcElements sh).mapM (fun p => do
      let v ← Extract.load a.input (((p.1 * sh.IC + p.2.2.2) * sh.IH + p.2.1) * sh.IW + p.2.2.1 : ℕ)
      return (nhwcIndex sh p, v)) = .ok ((nhwcElements sh).map fun p => (nhwcIndex sh p,
        a.input.getD (((p.1 * sh.IC + p.2.2.2) * sh.IH + p.2.1) * sh.IW + p.2.2.1) 0)) := by
    apply mapM_eq_ok_map
    intro p hp
    obtain ⟨hn, hh, hw, hc⟩ := mem_nhwcElements.mp hp
    rw [load_of_lt]
    · rfl
    · rw [a.input_length]
      exact PyList.mul_add_lt (PyList.mul_add_lt (PyList.mul_add_lt hn hc) hh) hw
  rw [transposeInput, hload]
  rfl

/-- The workspace of the input holds it with the channels innermost. -/
theorem transposeInput_spec {wsInput : List ℤ}
    (hsize : sh.N * sh.IH * sh.IW * sh.IC ≤ wsInput.length) :
    ∃ ws, transposeInput a wsInput = .ok ws ∧ HoldsInput a ws := by
  obtain ⟨ws, hrun, -, hget⟩ := runWrites_map (nhwcElements sh) (nhwcIndex sh)
    (fun p => a.input.getD (((p.1 * sh.IC + p.2.2.2) * sh.IH + p.2.1) * sh.IW + p.2.2.1) 0) wsInput
    (fun p hp => by
      obtain ⟨hn, hh, hw, hc⟩ := mem_nhwcElements.mp hp
      exact (PyList.mul_add_lt (PyList.mul_add_lt (PyList.mul_add_lt hn hh) hw) hc).trans_le hsize)
    (fun p hp p' hp' heq => by
      have hget := (PyList.getElem?_iff_of_map_range map_nhwcIndex).mpr ⟨hp, heq⟩
      rw [(PyList.getElem?_iff_of_map_range map_nhwcIndex).mpr ⟨hp', rfl⟩] at hget
      exact (Option.some.inj hget).symm)
  exact ⟨ws, (transposeInput_eq a wsInput).trans hrun, hget⟩

/-- The matrix of patches, by its rows and cells. The rows from `rows` on are zero. -/
def patch (tile rows : ℕ) (p : ℕ × ℕ) : ℤ :=
  if rows ≤ p.1 then 0
  else (((cells sh)[p.2]?).map fun cell => byteAt a (outPlace sh (tile + p.1)).1
    (outPlace sh (tile + p.1)).2.1 (outPlace sh (tile + p.1)).2.2 (tapOfCell cell)).getD 0

variable {ws : List ℤ} {tile rows : ℕ}

section
variable (hws : HoldsInput a ws)
include hws

theorem cellValue_eq {n : ℕ} (hn : n < sh.N) (oh ow : ℕ) {cell : ℕ × ℕ × ℕ}
    (hcell : cell ∈ cells sh) :
    cellValue sh ws (n, oh, ow) cell = .ok (byteAt a n oh ow (tapOfCell cell)) := by
  obtain ⟨kh, kw, c⟩ := cell
  have hc : c < sh.IC := by
    simp only [cells, mem_product, mem_range] at hcell
    exact hcell.2.2
  show (if sh.RowInside kh oh ∧ sh.ColInside kw ow then _ else _) = Except.ok (ite _ _ _)
  split_ifs with hin
  · obtain ⟨⟨hrow, hrow'⟩, hcol, hcol'⟩ := hin
    obtain ⟨h, hh⟩ := Int.eq_ofNat_of_zero_le hrow
    obtain ⟨w, hw⟩ := Int.eq_ofNat_of_zero_le hcol
    rw [hh] at hrow' ⊢
    rw [hw] at hcol' ⊢
    have hmem : (n, h, w, c) ∈ nhwcElements sh := by
      simp only [nhwcElements, mem_product, mem_range]
      exact ⟨hn, by exact_mod_cast hrow', by exact_mod_cast hcol', hc⟩
    have haddr : ((n * sh.IH + (h : ℤ)) * sh.IW + (w : ℤ)) * sh.IC + c =
        ((nhwcIndex sh (n, h, w, c) : ℕ) : ℤ) := by
      rw [nhwcIndex]
      push_cast
      ring
    rw [haddr]
    exact load_of_getElem? (hws _ hmem)
  · rfl

/-- The stores of a row. -/
theorem rowWrites_eq {i : ℕ} (hrows : tile + rows ≤ totalOut sh) :
    rowWrites sh ws tile rows i =
      .ok ((List.range (tapCount sh)).map fun k =>
        (i * tapCount sh + k, patch a tile rows (i, k))) := by
  rw [rowWrites]
  by_cases hpad : rows ≤ i
  · rw [if_pos hpad]
    simp only [patch, if_pos hpad]
  · have hplace := outPlace_bounds sh (show tile + i < totalOut sh by omega)
    have hcells : (cells sh).mapM (fun cell => do
        let v ← cellValue sh ws (outPlace sh (tile + i)) cell
        return (i * tapCount sh + cellIndex sh cell, v)) = .ok ((cells sh).map fun cell =>
          (i * tapCount sh + cellIndex sh cell, byteAt a (outPlace sh (tile + i)).1
            (outPlace sh (tile + i)).2.1 (outPlace sh (tile + i)).2.2 (tapOfCell cell))) := by
      apply mapM_eq_ok_map
      intro cell hcell
      have hvalue := cellValue_eq a hws hplace.1 (outPlace sh (tile + i)).2.1
        (outPlace sh (tile + i)).2.2 hcell
      rw [hvalue]
      rfl
    rw [if_neg hpad, hcells]
    apply congrArg Except.ok
    apply PyList.eq_map_range (by rw [length_map, length_cells])
    intro k hk
    obtain ⟨cell, hget⟩ : ∃ cell, (cells sh)[k]? = some cell :=
      ⟨_, getElem?_eq_getElem (by rwa [length_cells])⟩
    obtain ⟨-, hidx⟩ := (PyList.getElem?_iff_of_map_range map_cellIndex).mp hget
    simp only [getElem?_map, patch, if_neg hpad, hget, Option.map_some, hidx]
    rfl

/-- The stores of all rows. -/
theorem buildIm2col_eq (dim : ℕ) (wsIm2col : List ℤ) (hrows : tile + rows ≤ totalOut sh) :
    buildIm2col sh dim ws wsIm2col tile rows = runWrites wsIm2col
      ((List.range dim ×ˢ List.range (tapCount sh)).map fun p =>
        (p.1 * tapCount sh + p.2, patch a tile rows p)) := by
  have hmapM : (List.range dim).mapM (rowWrites sh ws tile rows) =
      .ok ((List.range dim).map fun i => (List.range (tapCount sh)).map fun k =>
        (i * tapCount sh + k, patch a tile rows (i, k))) :=
    mapM_eq_ok_map fun i _ => rowWrites_eq a hws hrows
  rw [buildIm2col, hmapM, PyList.map_product, flatMap_def]
  rfl

/-- The workspace of the patches holds them, whatever it held before. -/
theorem buildIm2col_spec {wsIm2col : List ℤ} (hrows : tile + rows ≤ totalOut sh)
    (hsize : tapCount sh * dim ≤ wsIm2col.length) :
    ∃ im, buildIm2col sh dim ws wsIm2col tile rows = .ok im ∧ im.length = wsIm2col.length ∧
      ∀ i < dim, ∀ k < tapCount sh, im[i * tapCount sh + k]? = some (patch a tile rows (i, k)) := by
  have hmem : ∀ p ∈ List.range dim ×ˢ List.range (tapCount sh), p.1 < dim ∧ p.2 < tapCount sh := by
    intro p hp
    simpa using mem_product.mp hp
  obtain ⟨im, hrun, hlen, hget⟩ := runWrites_map (List.range dim ×ˢ List.range (tapCount sh))
    (fun p => p.1 * tapCount sh + p.2) (patch a tile rows) wsIm2col
    (fun p hp => by
      obtain ⟨hi, hk⟩ := hmem p hp
      rw [Nat.mul_comm] at hsize
      exact (PyList.mul_add_lt hi hk).trans_le hsize)
    (fun p hp p' hp' heq => by
      obtain ⟨hi, hk⟩ := PyList.mul_add_inj (hmem p hp).2 (hmem p' hp').2 heq
      exact Prod.ext hi hk)
  exact ⟨im, (buildIm2col_eq a hws dim wsIm2col hrows).trans hrun, hlen, fun i hi k hk =>
    hget (i, k) (mem_product.mpr ⟨mem_range.mpr hi, mem_range.mpr hk⟩)⟩

end

end

/-! ### Tiles -/

section
variable {sh : ConvShape} (a : ConvArgs sh) {q : QuantBlock} {r : RequantParams} {dim : ℕ}
  (mm : TiledMatmul) (addr : ℕ × ℕ × ℕ × ℕ → ℕ) (b : List ℤ)

/-- The matrix is that of the patches of a tile. -/
def HoldsPatches (dim tile : ℕ) (im : List ℤ) : Prop :=
  ∀ i < dim, ∀ k < tapCount sh,
    im[i * tapCount sh + k]? = some (patch a tile (tileRows sh dim tile) (i, k))

/-- The store of an element of a tile, from what the accelerator has stored for the patches. -/
def tileStore (addr : ℕ × ℕ × ℕ × ℕ → ℕ) (f : ℤ → ℤ) (mm : TiledMatmul) (dim : ℕ)
    (im b : List ℤ) (tile : ℕ) (p : ℕ × ℕ) : ℕ × ℤ :=
  (addr ((outPlace sh (tile + p.1)).1, p.2, (outPlace sh (tile + p.1)).2),
    f (mm dim sh.OC (tapCount sh) im b a.bias p.1 p.2))

variable {tile oc : ℕ} {f : ℤ → ℤ} {ws wsIm2col wsAccOut : List ℤ}

section
variable (hf : ∀ acc, elementOf q r acc = .ok (f acc)) (hws : HoldsInput a ws)
include hf hws

/-- A tile succeeds in workspaces that are large enough. -/
theorem gemminiTile_spec {s : GemminiState} (him : tapCount sh * dim ≤ s.wsIm2col.length)
    (hacc : sh.OC * dim ≤ s.wsAccOut.length) (htile : tile < totalOut sh) :
    ∃ s', gemminiTile a q r dim mm addr ws b s tile = .ok s' ∧
      s'.wsIm2col.length = s.wsIm2col.length ∧ s'.wsAccOut.length = s.wsAccOut.length ∧
      ∃ im, HoldsPatches a dim tile im ∧ s'.writes = s.writes ++
        (List.range (tileRows sh dim tile) ×ˢ List.range sh.OC).map
          (tileStore a addr f mm dim im b tile) := by
  have hrows : tile + tileRows sh dim tile ≤ totalOut sh := by
    rw [tileRows]
    omega
  obtain ⟨im, hbuild, himlen, hpatch⟩ := buildIm2col_spec a hws hrows him
  have hmem : ∀ p ∈ List.range dim ×ˢ List.range sh.OC, p.1 < dim ∧ p.2 < sh.OC := by
    intro p hp
    simpa using mem_product.mp hp
  obtain ⟨acc, hstore, hacclen, hget⟩ := runWrites_map (List.range dim ×ˢ List.range sh.OC)
    (fun p => p.1 * sh.OC + p.2) (fun p => mm dim sh.OC (tapCount sh) im b a.bias p.1 p.2)
    s.wsAccOut
    (fun p hp => by
      obtain ⟨hi, hj⟩ := hmem p hp
      rw [Nat.mul_comm] at hacc
      exact (PyList.mul_add_lt hi hj).trans_le hacc)
    (fun p hp p' hp' heq => by
      obtain ⟨hi, hj⟩ := PyList.mul_add_inj (hmem p hp).2 (hmem p' hp').2 heq
      exact Prod.ext hi hj)
  have hwrites : (List.range (tileRows sh dim tile) ×ˢ List.range sh.OC).mapM (fun p => do
      let x ← Extract.load acc (p.1 * sh.OC + p.2 : ℕ)
      let v ← elementOf q r x
      let place := outPlace sh (tile + p.1)
      return (addr (place.1, p.2, place.2), v)) = .ok
      ((List.range (tileRows sh dim tile) ×ˢ List.range sh.OC).map
        (tileStore a addr f mm dim im b tile)) := by
    apply mapM_eq_ok_map
    intro p hp
    obtain ⟨hi, hj⟩ := mem_product.mp hp
    have hrow : p.1 < dim := by
      have hlt := mem_range.mp hi
      rw [tileRows] at hlt
      omega
    rw [load_of_getElem? (hget p (mem_product.mpr ⟨mem_range.mpr hrow, hj⟩))]
    show (elementOf q r _ >>= _) = _
    rw [hf]
    rfl
  have hrun : gemminiTile a q r dim mm addr ws b s tile = .ok ⟨im, acc, s.writes ++
      (List.range (tileRows sh dim tile) ×ˢ List.range sh.OC).map
        (tileStore a addr f mm dim im b tile)⟩ := by
    rw [gemminiTile, hbuild]
    show (runWrites s.wsAccOut _ >>= _) = _
    rw [hstore]
    show ((List.mapM _ _ : Except CFault _) >>= _) = _
    rw [hwrites]
    rfl
  exact ⟨_, hrun, himlen, hacclen, im, hpatch, rfl⟩

/-- What the loop stores: the elements of its tiles, and nothing else. -/
theorem gemminiLoop_spec (him : tapCount sh * dim ≤ wsIm2col.length)
    (hacc : sh.OC * dim ≤ wsAccOut.length) :
    ∃ s, gemminiLoop a q r dim mm addr ws b wsIm2col wsAccOut = .ok s ∧
      (∀ w ∈ s.writes, ∃ tile ∈ gemminiTiles sh dim, ∃ im, HoldsPatches a dim tile im ∧
        ∃ p ∈ List.range (tileRows sh dim tile) ×ˢ List.range sh.OC,
          w = tileStore a addr f mm dim im b tile p) ∧
      ∀ tile ∈ gemminiTiles sh dim, ∃ im, HoldsPatches a dim tile im ∧
        ∀ p ∈ List.range (tileRows sh dim tile) ×ˢ List.range sh.OC,
          tileStore a addr f mm dim im b tile p ∈ s.writes := by
  have hloop : ∃ s, gemminiLoop a q r dim mm addr ws b wsIm2col wsAccOut = .ok s ∧
      tapCount sh * dim ≤ s.wsIm2col.length ∧ sh.OC * dim ≤ s.wsAccOut.length ∧
      (∀ w ∈ s.writes, ∃ tile ∈ gemminiTiles sh dim, ∃ im, HoldsPatches a dim tile im ∧
        ∃ p ∈ List.range (tileRows sh dim tile) ×ˢ List.range sh.OC,
          w = tileStore a addr f mm dim im b tile p) ∧
      ∀ tile ∈ gemminiTiles sh dim, ∃ im, HoldsPatches a dim tile im ∧
        ∀ p ∈ List.range (tileRows sh dim tile) ×ˢ List.range sh.OC,
          tileStore a addr f mm dim im b tile p ∈ s.writes := by
    refine exists_foldlM_eq_ok
      (P := fun done (s : GemminiState) => tapCount sh * dim ≤ s.wsIm2col.length ∧
        sh.OC * dim ≤ s.wsAccOut.length ∧
        (∀ w ∈ s.writes, ∃ tile ∈ done, ∃ im, HoldsPatches a dim tile im ∧
          ∃ p ∈ List.range (tileRows sh dim tile) ×ˢ List.range sh.OC,
            w = tileStore a addr f mm dim im b tile p) ∧
        ∀ tile ∈ done, ∃ im, HoldsPatches a dim tile im ∧
          ∀ p ∈ List.range (tileRows sh dim tile) ×ˢ List.range sh.OC,
            tileStore a addr f mm dim im b tile p ∈ s.writes)
      ?_ ⟨him, hacc, by simp, by simp⟩
    rintro done tile rest s hsplit ⟨him, hacc, hwrites, hall⟩
    have hmem : tile ∈ gemminiTiles sh dim := hsplit ▸ by simp
    have htile : tile < totalOut sh := lt_of_mem_gemminiTiles hmem
    obtain ⟨s', hrun, himlen, hacclen, im, hpatch, heq⟩ :=
      gemminiTile_spec a mm addr b hf hws him hacc htile
    refine ⟨s', hrun, himlen ▸ him, hacclen ▸ hacc, fun w hw => ?_, fun tile' htile' => ?_⟩
    · rw [heq] at hw
      rcases mem_append.mp hw with hw | hw
      · obtain ⟨tile', htile', hrest⟩ := hwrites w hw
        exact ⟨tile', mem_append_left _ htile', hrest⟩
      · obtain ⟨p, hp, rfl⟩ := mem_map.mp hw
        exact ⟨tile, by simp, im, hpatch, p, hp, rfl⟩
    · rw [heq]
      rcases mem_append.mp htile' with htile' | htile'
      · obtain ⟨im', hpatch', hrest⟩ := hall tile' htile'
        exact ⟨im', hpatch', fun p hp => mem_append_left _ (hrest p hp)⟩
      · obtain rfl := mem_singleton.mp htile'
        exact ⟨im, hpatch, fun p hp => mem_append_right _ (mem_map_of_mem hp)⟩
  obtain ⟨s, hrun, -, -, hwrites, hall⟩ := hloop
  exact ⟨s, hrun, hwrites, hall⟩

end

/-- The sum over the cells of a row is the accumulator of the reference. -/
theorem accumulator_eq_cells (layout : WeightLayout) (hin : q.inputOffset = 0) (n oh ow : ℕ)
    (hoc : oc < sh.OC) : wrap 32 ((a.bias.map (·.getD oc 0)).getD 0 +
      ((cells sh).map fun cell => byteAt a n oh ow (tapOfCell cell) *
        (a.tensors layout).factor q oc (tapOfCell cell)).sum) =
      a.accumulator q layout (n, oc, oh, ow) := by
  have hbias : (a.bias.map (·.getD oc 0)).getD 0 = (a.tensors layout).bias.getD oc 0 := by
    show _ = (a.bias.getD (List.replicate sh.OC 0)).getD oc 0
    cases hb : a.bias with
    | none => simp [hoc]
    | some l => rfl
  have hsum : ((cells sh).map fun cell => byteAt a n oh ow (tapOfCell cell) *
      (a.tensors layout).factor q oc (tapOfCell cell)).sum = (sh.taps.map fun tap =>
        (a.tensors layout).inputAt q n oh ow tap * (a.tensors layout).factor q oc tap).sum := by
    have hperm := (map_tapOfCell_perm sh).map fun tap =>
      (a.tensors layout).inputAt q n oh ow tap * (a.tensors layout).factor q oc tap
    rw [map_map] at hperm
    rw [← hperm.sum_eq]
    congr 1
    apply map_congr_left
    intro cell _
    show _ = (a.tensors layout).inputAt q n oh ow (tapOfCell cell) * _
    rw [inputAt_eq_byteAt a layout hin]
  rw [hbias, hsum]
  rfl

/-- The matrix has the factors of a layout, in the order of the cells. -/
def HoldsFactors (a : ConvArgs sh) (q : QuantBlock) (layout : WeightLayout) (b : List ℤ) : Prop :=
  ∀ oc < sh.OC, ∀ cell ∈ cells sh, b.getD (cellIndex sh cell * sh.OC + oc) 0 =
    (a.tensors layout).factor q oc (tapOfCell cell)

/-- The product of the patches and the weight is the accumulator of the reference. -/
theorem matmul_patches (hmm : mm.Exact) (layout : WeightLayout) (hin : q.inputOffset = 0) {i : ℕ}
    {im : List ℤ} (him : HoldsPatches a dim tile im) (hi : i < tileRows sh dim tile)
    (hoc : oc < sh.OC) (hb : HoldsFactors a q layout b) :
    mm dim sh.OC (tapCount sh) im b a.bias i oc =
      a.accumulator q layout ((outPlace sh (tile + i)).1, oc, (outPlace sh (tile + i)).2) := by
  rcases hplace : outPlace sh (tile + i) with ⟨n, oh, ow⟩
  have hdim : i < dim := hi.trans_le (Nat.min_le_right _ _)
  have hrow : (List.range (tapCount sh)).map (fun k =>
      im.getD (i * tapCount sh + k) 0 * b.getD (k * sh.OC + oc) 0) =
      (cells sh).map fun cell => byteAt a n oh ow (tapOfCell cell) *
        (a.tensors layout).factor q oc (tapOfCell cell) := by
    symm
    apply PyList.eq_map_range (by rw [length_map, length_cells])
    intro k hk
    obtain ⟨cell, hget⟩ : ∃ cell, (cells sh)[k]? = some cell :=
      ⟨_, getElem?_eq_getElem (by rwa [length_cells])⟩
    obtain ⟨hcell, hidx⟩ := (PyList.getElem?_iff_of_map_range map_cellIndex).mp hget
    have hpatch := him i hdim k hk
    rw [patch, if_neg (Nat.not_le.mpr hi), hget, hplace] at hpatch
    rw [getElem?_map, hget, getD_eq_getElem?_getD, hpatch, ← hidx, hb oc hoc cell hcell]
    rfl
  rw [hmm _ _ _ _ _ _ i hdim oc hoc, hrow]
  exact accumulator_eq_cells a layout hin n oh ow hoc

/-- The loop stores what becomes of the accumulators. -/
theorem gemminiLoop_stores (hdim : 0 < dim) (hmm : mm.Exact) (layout : WeightLayout)
    (hin : q.inputOffset = 0) (hf : ∀ acc, elementOf q r acc = .ok (f acc)) (hws : HoldsInput a ws)
    (hb : HoldsFactors a q layout b) (him : tapCount sh * dim ≤ wsIm2col.length)
    (hacc : sh.OC * dim ≤ wsAccOut.length) :
    ∃ s, gemminiLoop a q r dim mm addr ws b wsIm2col wsAccOut = .ok s ∧
      (∀ w ∈ s.writes, ∃ t ∈ sh.outputs, w = (addr t, f (a.accumulator q layout t))) ∧
      ∀ t ∈ sh.outputs, (addr t, f (a.accumulator q layout t)) ∈ s.writes := by
  obtain ⟨s, hloop, hwrites, hall⟩ := gemminiLoop_spec a mm addr b hf hws him hacc
  have hstore : ∀ tile im, HoldsPatches a dim tile im →
      ∀ p ∈ List.range (tileRows sh dim tile) ×ˢ List.range sh.OC,
        tileStore a addr f mm dim im b tile p = (addr ((outPlace sh (tile + p.1)).1, p.2,
          (outPlace sh (tile + p.1)).2), f (a.accumulator q layout
            ((outPlace sh (tile + p.1)).1, p.2, (outPlace sh (tile + p.1)).2))) := by
    intro tile im him' p hp
    obtain ⟨hi, hoc⟩ := mem_product.mp hp
    rw [tileStore, matmul_patches a mm b hmm layout hin him' (mem_range.mp hi)
      (mem_range.mp hoc) hb]
  refine ⟨s, hloop, fun w hw => ?_, ?_⟩
  · obtain ⟨tile, htile, im, him', p, hp, rfl⟩ := hwrites w hw
    obtain ⟨hi, hoc⟩ := mem_product.mp hp
    have hrow := mem_range.mp hi
    have hidx : tile + p.1 < totalOut sh := by
      rw [tileRows] at hrow
      omega
    have hplace := outPlace_bounds sh hidx
    exact ⟨_, ConvShape.mem_outputs.mpr ⟨hplace.1, mem_range.mp hoc, hplace.2⟩,
      hstore tile im him' p hp⟩
  · rintro ⟨n, oc, oh, ow⟩ ht
    obtain ⟨hn, hoc, hoh, how⟩ := ConvShape.mem_outputs.mp ht
    obtain ⟨idx, hidx, hplace⟩ := exists_outPlace hn hoh how
    obtain ⟨tile, htile, i, hi, rfl⟩ := exists_gemminiTile hdim hidx
    obtain ⟨im, him', hmem⟩ := hall tile htile
    have hp : (i, oc) ∈ List.range (tileRows sh dim tile) ×ˢ List.range sh.OC :=
      mem_product.mpr ⟨mem_range.mpr hi, mem_range.mpr hoc⟩
    have hw := hmem _ hp
    rw [hstore tile im him' _ hp, hplace] at hw
    exact hw

/-- Without an offset, the factor of a tap is the byte of the weight. -/
theorem factor_eq_getD (layout : WeightLayout) (hfilter : q.filterOffset = 0) (hoc : oc < sh.OC)
    {tap : ℕ × ℕ × ℕ} (htap : tap ∈ sh.taps) :
    (a.tensors layout).factor q oc tap = a.weight.getD (weightIndex sh layout oc tap) 0 := by
  have hfits := fits_getD a.weight_fits (weightIndex sh layout oc tap)
  rw [a.factor_tensors q hoc htap, hfilter, add_zero]
  apply wrap_eq_self (by decide)
  rw [Fits] at hfits ⊢
  omega

theorem tapOfCell_mem {cell : ℕ × ℕ × ℕ} (h : cell ∈ cells sh) : tapOfCell cell ∈ sh.taps :=
  (map_tapOfCell_perm sh).mem_iff.mp (mem_map_of_mem h)

/-- A weight in the layout of the accelerator has its rows in the order of the cells. -/
theorem holdsFactors_weight (hfilter : q.filterOffset = 0) :
    HoldsFactors a q .hwio a.weight := by
  intro oc hoc cell hcell
  rw [factor_eq_getD a .hwio hfilter hoc (tapOfCell_mem hcell)]
  rfl

end

/-! ### The kernel -/

section
variable {sh : ConvShape} (a : ConvArgs sh) {q : QuantBlock} {r : RequantParams} {dim : ℕ}
  (mm : TiledMatmul) {sizes : GemminiSizes} (ws : GemminiWorkspaces sizes)

/-- The workspaces are large enough for the path through the accelerator. -/
def GemminiFits (sizes : GemminiSizes) (sh : ConvShape) (dim : ℕ) : Prop :=
  sh.N * sh.IH * sh.IW * sh.IC ≤ sizes.wsBytes ∧ tapCount sh * dim ≤ sizes.im2colElems ∧
    sh.OC * dim ≤ sizes.accElems

variable {f : ℤ → ℤ}

/-- The path through the accelerator computes the output, if its workspaces are large enough. -/
theorem computes_gemminiAccelerated (hdim : 0 < dim) (hmm : mm.Exact) (hin : q.inputOffset = 0)
    (hfilter : q.filterOffset = 0) (hfits : GemminiFits sizes sh dim)
    (hf : ∀ acc, elementOf q r acc = .ok (f acc)) :
    Computes sh (fun t => f (a.accumulator q .hwio t)) (gemminiAccelerated a q r dim mm ws) := by
  obtain ⟨hinput, him, hacc⟩ := hfits
  rw [← ws.wsInput_length] at hinput
  rw [← ws.wsIm2col_length] at him
  rw [← ws.wsAccOut_length] at hacc
  obtain ⟨wsInput, htranspose, hws⟩ := transposeInput_spec a hinput
  obtain ⟨s, hloop, hwrites, hall⟩ := gemminiLoop_stores a mm (outAddr sh) a.weight hdim hmm .hwio
    hin hf hws (holdsFactors_weight a hfilter) him hacc
  refine ⟨s.writes, ?_, hwrites, hall⟩
  rw [gemminiAccelerated, htranspose]
  show (gemminiLoop a q r dim mm (outAddr sh) wsInput a.weight ws.wsIm2col ws.wsAccOut >>= _) = _
  rw [hloop]
  rfl

/-- A buffer that has room for the last element of a product of ranges has room for all. -/
theorem mul_le_of_last {m n size : ℕ} (h : ∀ i < m, ∀ j < n, i * n + j < size) : n * m ≤ size := by
  rcases Nat.eq_zero_or_pos m with rfl | hm
  · exact Nat.zero_le _
  rcases Nat.eq_zero_or_pos n with rfl | hn
  · rw [Nat.zero_mul]
    exact Nat.zero_le _
  have hlast := h (m - 1) (by omega) (n - 1) (by omega)
  have hsplit : n * m = (m - 1) * n + n := by
    rw [← Nat.succ_mul, Nat.succ_eq_add_one, Nat.sub_add_cancel hm, Nat.mul_comm]
  omega

section
variable (hdim : 0 < dim)
include hdim

/-- The loop begins with the first element. -/
theorem gemminiTiles_eq_cons (sh : ConvShape) :
    ∃ rest, gemminiTiles sh dim = 0 :: rest := by
  have htotal : 0 < totalOut sh :=
    Nat.mul_pos (Nat.mul_pos sh.n_pos (Nat.succ_pos _)) (Nat.succ_pos _)
  obtain ⟨k, hk⟩ : ∃ k, (totalOut sh + dim - 1) / dim = k + 1 := by
    apply Nat.exists_eq_succ_of_ne_zero
    have hpos := Nat.div_pos (show dim ≤ totalOut sh + dim - 1 by omega) hdim
    omega
  rw [gemminiTiles, hk, range_succ_eq_map, map_cons, Nat.mul_zero]
  exact ⟨_, rfl⟩

/-- The path stays in its workspaces iff they are large enough, whatever the accelerator stores. -/
theorem exists_gemminiAccelerated_iff :
    (∃ writes, gemminiAccelerated a q r dim mm ws = .ok writes) ↔ GemminiFits sizes sh dim := by
  obtain ⟨f, hf⟩ := exists_elementOf q r
  constructor
  · rintro ⟨writes, h⟩
    obtain ⟨wsInput, htranspose, h⟩ := bind_eq_ok_iff.mp h
    obtain ⟨s, hloop, -⟩ := bind_eq_ok_iff.mp h
    have hinput : sh.N * sh.IH * sh.IW * sh.IC ≤ ws.wsInput.length := by
      have hlt := lt_of_runWrites ((transposeInput_eq a ws.wsInput).symm.trans htranspose)
      by_contra hlarge
      have hmem : ws.wsInput.length ∈ (nhwcElements sh).map (nhwcIndex sh) := by
        rw [map_nhwcIndex, mem_range, length_nhwcElements]
        omega
      obtain ⟨p, hp, heq⟩ := mem_map.mp hmem
      exact absurd (heq ▸ hlt _ (mem_map_of_mem hp)) (Nat.lt_irrefl _)
    obtain ⟨wsInput', htranspose', hws⟩ := transposeInput_spec a hinput
    obtain rfl : wsInput' = wsInput := Except.ok.inj (htranspose'.symm.trans htranspose)
    -- The first tile fills both of the other workspaces.
    obtain ⟨rest, hrest⟩ := gemminiTiles_eq_cons hdim sh
    rw [gemminiLoop, hrest, foldlM_cons] at hloop
    obtain ⟨s₁, htile, -⟩ := bind_eq_ok_iff.mp hloop
    obtain ⟨im, hbuild, htile⟩ := bind_eq_ok_iff.mp htile
    obtain ⟨acc, hstore, -⟩ := bind_eq_ok_iff.mp htile
    have hrows : 0 + tileRows sh dim 0 ≤ totalOut sh := by
      rw [tileRows]
      omega
    have him := lt_of_runWrites ((buildIm2col_eq a hws dim _ hrows).symm.trans hbuild)
    have hacc := lt_of_runWrites hstore
    have hpair : ∀ {i j n : ℕ}, i < dim → j < n → (i, j) ∈ List.range dim ×ˢ List.range n :=
      fun hi hj => mem_product.mpr ⟨mem_range.mpr hi, mem_range.mpr hj⟩
    refine ⟨ws.wsInput_length ▸ hinput, ?_, ?_⟩
    · rw [← ws.wsIm2col_length]
      exact mul_le_of_last fun i hi k hk => him _ (mem_map_of_mem (hpair hi hk))
    · rw [← ws.wsAccOut_length]
      exact mul_le_of_last fun i hi j hj => hacc _ (mem_map_of_mem (hpair hi hj))
  · rintro ⟨hinput, him, hacc⟩
    rw [← ws.wsInput_length] at hinput
    rw [← ws.wsIm2col_length] at him
    rw [← ws.wsAccOut_length] at hacc
    obtain ⟨wsInput, htranspose, hws⟩ := transposeInput_spec a hinput
    obtain ⟨s, hloop, -⟩ := gemminiLoop_spec a mm (outAddr sh) a.weight hf hws him hacc
    refine ⟨s.writes, ?_⟩
    rw [gemminiAccelerated, htranspose]
    show (gemminiLoop a q r dim mm (outAddr sh) wsInput a.weight ws.wsIm2col ws.wsAccOut >>= _) = _
    rw [hloop]
    rfl

/-- The scalar loops are taken iff an offset of the products is not zero, or the path through the
accelerator would leave a workspace, or the weight or the output is larger than the input may be. -/
theorem gemminiFallback_iff : GemminiFallback sizes sh q dim ↔
    q.inputOffset ≠ 0 ∨ q.filterOffset ≠ 0 ∨
      (¬∃ writes, gemminiAccelerated a q r dim mm ws = .ok writes) ∨
      sizes.wsBytes < tapCount sh * sh.OC ∨ sizes.wsBytes < sh.N * sh.OH * sh.OW * sh.OC := by
  rw [exists_gemminiAccelerated_iff a mm ws hdim, GemminiFallback, GemminiFits]
  omega

/-- The kernel computes the output, and what it computes is that of the reference. -/
theorem computes_gemminiConv2dS8 (hmm : mm.Exact) (hf : ∀ acc, elementOf q r acc = .ok (f acc)) :
    Computes sh (fun t => f (a.accumulator q .hwio t)) (gemminiConv2dS8 a q r dim mm ws) := by
  rw [gemminiConv2dS8]
  by_cases hfallback : GemminiFallback sizes sh q dim
  · rw [if_pos hfallback]
    exact a.computes_referenceLoops q .hwio hf
  · rw [if_neg hfallback]
    rw [GemminiFallback] at hfallback
    exact computes_gemminiAccelerated a mm ws hdim hmm (by omega) (by omega)
      ⟨by omega, by omega, by omega⟩ hf

end

end

/-- An accelerator that stores the product. -/
def exactMatmul : TiledMatmul := fun _ dimJ dimK a b d i j =>
  wrap 32 ((d.map (·.getD j 0)).getD 0 +
    ((List.range dimK).map fun k => a.getD (i * dimK + k) 0 * b.getD (k * dimJ + j) 0).sum)

/-- Workspaces that no call has used. -/
def clearWorkspaces (sizes : GemminiSizes) : GemminiWorkspaces sizes where
  wsInput := List.replicate sizes.wsBytes 0
  wsIm2col := List.replicate sizes.im2colElems 0
  wsAccOut := List.replicate sizes.accElems 0
  wsInput_length := length_replicate
  wsIm2col_length := length_replicate
  wsAccOut_length := length_replicate

/-- A convolution of 256 channels by filters of three by three, at one place. -/
def wideShape : ConvShape :=
  { pointShape with
    IC := 256, IH := 3, IW := 3, OC := 256, KH := 3, KW := 3
    oc_pos := by decide, kh_le := by decide, kw_le := by decide }

/-- Its buffers, all of them zero. -/
def wideArgs : ConvArgs wideShape where
  input := List.replicate (1 * 256 * 3 * 3) 0
  weight := List.replicate (256 * 256 * 3 * 3) 0
  bias := none
  input_length := length_replicate
  weight_length := length_replicate
  bias_length := by simp
  input_fits := fun _ hv => eq_of_mem_replicate hv ▸ by decide
  weight_fits := fun _ hv => eq_of_mem_replicate hv ▸ by decide
  bias_fits := zeroArgs.bias_fits

end ModelBlaster.Kernels

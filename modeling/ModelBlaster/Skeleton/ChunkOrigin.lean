import ModelBlaster.Composite.Plan
import Mathlib.Data.List.Flatten
import Mathlib.Tactic.Ring

/-!
# Where the elements of a half come from

Half `k` of a chunk has at `n, c, h, w` the element of the source at `n, k * (C / 2) + c, h, w`. In a
buffer the halves of a batch item follow each other, so the elements of one half are together in one
batch item only: in later items they are further behind the start of the half than their index says.

## Main definitions

* `extractChunk`: the op that extraction makes of a chunk;
* `emitAliases`, `ptrFor`: the pointers of the generated program;
* `exportAliases`: the table of views of an exported partition;
* `FromHalf`: what a chunk does, on positions in dense buffers;
* `Through`: an element is read through an element of another tensor;
* `Origin`: the element that no view and no chunk has put there;
* `Extracted`: the graphs that extraction accepts;
* `EmitReads`, `ExportReads`: kernels read the elements of a half where they are;
* `ReadsFirstItems`: kernels read elements of first batch items only.

## Main results

* `fromHalf_iff`: the position of an element in the source;
* `Extracted.exists_origin`: every element has an origin;
* `Extracted.rootIn_le`: the origin is in the buffer of the root, and not in front of the address
  that the root and its offset give. It is there if all is read in first batch items;
* `emitPtr_eq`: the pointer of the generated program;
* `exportAliases_eq`: the table of the exported partition;
* `emitReads_iff`: when the generated program reads halves;
* `chunkReads_iff`: when both do.
-/

/-! ## Chunks without a copy -/

namespace ModelBlaster.Chunk

open Composite (Aliases)

/-! ### Graphs -/

/-- An entry of the table of tensors. -/
structure TensorMeta where
  shape : List ℕ
  dtype : String
  /-- The name of the data of a constant. -/
  const : Option String := none
deriving DecidableEq, Repr

/-- The number of elements. -/
def TensorMeta.numel (info : TensorMeta) : ℕ := info.shape.prod

/-- An op of a graph, as far as aliases look at it. -/
structure IrOp where
  name : String
  /-- The kind. -/
  op : String
  inputs : List String
  outputs : List String
  shape : PyDict String ℕ := PyDict.empty
  /-- `offset`, of a view. -/
  offset : Option ℕ := none

/-- The table of tensors. -/
abbrev Tensors : Type := PyDict String TensorMeta

/-- A graph, as far as aliases look at it. -/
structure IrGraph where
  tensors : Tensors
  ops : List IrOp

/-- The kinds of chunks that the code generator knows. -/
def chunkKinds : List String := ["chunk2_c1", "chunk2_c1_f16", "chunk2_c1_s8"]

/-- The op splits the channels of a tensor. -/
def IrOp.IsChunk (o : IrOp) : Prop := o.op ∈ chunkKinds

/-- `_zero_cost_ops`: the op has no kernel. -/
def IrOp.ZeroCost (o : IrOp) : Prop := o.op = "view" ∨ o.IsChunk

instance (o : IrOp) : Decidable o.IsChunk := inferInstanceAs (Decidable (_ ∈ _))

instance (o : IrOp) : Decidable o.ZeroCost := inferInstanceAs (Decidable (_ ∨ _))

/-! ### Extraction -/

/-- A node that uses the result of another. -/
structure FxUser where
  name : String
  /-- The index, of a `getitem` with an integer. -/
  index : Option ℤ

/-- A call of `chunk`. -/
structure ChunkCall where
  name : String
  input : String
  chunks : ℤ
  /-- The third argument. -/
  dimArg : Option ℤ := none
  /-- The keyword `dim`. -/
  dimKeyword : Option ℤ := none
  users : List FxUser

/-- Why a chunk is refused. -/
inductive ExtractError where
  | onlyChunk2Dim1 (node : String)
  | only4D (node : String)
  | oddChannels (node : String) (channels : ℕ)
  | expectedBothHalves (node : String)
  | keyError
deriving DecidableEq, Repr

/-- The last `getitem` with an index. -/
def lastGetitem (users : List FxUser) (index : ℤ) : Option FxUser :=
  users.foldl (fun found user => if user.index = some index then some user else found) none

/-- The entry of a half. -/
def halfOf (info : TensorMeta) (N C H W : ℕ) : TensorMeta where
  shape := [N, C / 2, H, W]
  dtype := info.dtype

/-- The part of the two extractions that accepts a chunk. They differ in the storage type only,
which is the one of the source. -/
def extractChunk (tensors : Tensors) (call : ChunkCall) : Except ExtractError (IrOp × Tensors) :=
  let dim := call.dimArg.getD (call.dimKeyword.getD 0)
  if call.chunks ≠ 2 ∨ dim ≠ 1 then .error (.onlyChunk2Dim1 call.name)
  else
    match tensors.get? call.input with
    | none => .error .keyError
    | some info =>
      match info.shape with
      | [N, C, H, W] =>
        if C % 2 ≠ 0 then .error (.oddChannels call.name C)
        else
          match lastGetitem call.users 0, lastGetitem call.users 1 with
          | some gi0, some gi1 =>
            .ok ({ name := call.name
                   op := "chunk2_c1"
                   inputs := [call.input]
                   outputs := [gi0.name, gi1.name]
                   shape := PyDict.ofList
                     [("N", N), ("C", C), ("H", H), ("W", W), ("c_each", C / 2)] },
              (tensors.set gi0.name (halfOf info N C H W)).set gi1.name (halfOf info N C H W))
          | _, _ => .error (.expectedBothHalves call.name)
      | _ => .error (.only4D call.name)

/-! ### The generated program -/

/-- Why there are no pointers. -/
inductive AliasError where
  | aliasCycle (tensor : String)
  | recursion
  | noSpec (kind : String)
  | keyError
  | indexError
deriving DecidableEq, Repr

/-- `aliases` and `offset_aliases` -/
structure EmitAliases where
  aliases : PyDict String String := PyDict.empty
  offsets : PyDict String (String × ℕ) := PyDict.empty

/-- An op is looked at for aliases. Extraction makes no tiles, which have offsets as well. -/
def EmitAliases.add (d : EmitAliases) (o : IrOp) : Except AliasError EmitAliases :=
  if o.op = "view" then
    match o.outputs, o.inputs with
    | t :: _, s :: _ =>
      -- an offset of zero is no offset
      if o.offset.getD 0 ≠ 0 then .ok { d with offsets := d.offsets.set t (s, o.offset.getD 0) }
      else .ok { d with aliases := d.aliases.set t s }
    | _, _ => .error .indexError
  else if o.IsChunk then
    match o.inputs with
    | [] => .error .indexError
    | base :: _ =>
      match o.shape.get? "c_each", o.shape.get? "H", o.shape.get? "W" with
      | some c, some h, some w =>
        match o.outputs with
        | t :: u :: _ =>
          .ok { d with offsets := (d.offsets.set t (base, 0)).set u (base, c * h * w) }
        | _ => .error .indexError
      | _, _, _ => .error .keyError
  else .ok d

/-- The aliases of a graph. -/
def emitAliases (ops : List IrOp) : Except AliasError EmitAliases :=
  ops.foldlM EmitAliases.add {}

/-- `resolve_alias`. The loop is bounded; no chain of aliases is longer than there are aliases. -/
def resolveAlias (aliases : PyDict String String) : ℕ → List String → String →
    Except AliasError String
  | 0, _, _ => .error .recursion
  | steps + 1, seen, t =>
    match aliases.get? t with
    | none => .ok t
    | some s =>
      if t ∈ seen then .error (.aliasCycle t) else resolveAlias aliases steps (t :: seen) s

/-- What a pointer points into. -/
inductive PtrBase where
  /-- `input`, `output` or the buffer of a tensor. -/
  | tensor (name : String)
  /-- The data of a constant. -/
  | weight (key : String)
deriving DecidableEq, Repr

/-- A pointer, with its offset in elements. -/
structure Ptr where
  base : PtrBase
  offset : ℕ
deriving DecidableEq, Repr

/-- The pointer of a tensor that has its own. -/
def ownBase (tensors : Tensors) (t : String) : PtrBase :=
  match (tensors.get? t).bind TensorMeta.const with
  | some key => .weight key
  | none => .tensor t

/-- `ptr_for` -/
def ptrFor (d : EmitAliases) (tensors : Tensors) : ℕ → String → Except AliasError Ptr
  | 0, _ => .error .recursion
  | steps + 1, tensor =>
    match resolveAlias d.aliases (steps + 1) [] tensor with
    | .error e => .error e
    | .ok t =>
      match (tensors.get? t).bind TensorMeta.const, d.offsets.get? t with
      | some key, _ => .ok ⟨.weight key, 0⟩
      | none, some (base, off) =>
        match ptrFor d tensors steps base with
        | .error e => .error e
        | .ok p => .ok ⟨p.base, p.offset + off⟩
      | none, none => .ok ⟨.tensor t, 0⟩

/-- The pointer that a kernel of the generated program is given for a tensor. -/
def emitPtr (g : IrGraph) (t : String) : Except AliasError Ptr :=
  match emitAliases g.ops with
  | .error e => .error e
  | .ok d => ptrFor d g.tensors (2 * g.ops.length + 1) t

/-! ### The exported partition -/

/-- An op of the partition is looked at for aliases. -/
def addExport (tensors : Tensors) (al : Aliases) (o : IrOp) : Except AliasError Aliases :=
  if o.op = "view" then
    match o.inputs, o.outputs with
    | s :: _, t :: _ =>
      let base := (al.get? s).getD (s, 0)
      .ok (al.set t (base.1, base.2 + (o.offset.getD 0 : ℕ)))
    | _, _ => .error .indexError
  else if o.op = "chunk2_c1" then
    match o.inputs with
    | [] => .error .indexError
    | s :: _ =>
      match tensors.get? s, o.shape.get? "c_each" with
      | some info, some c =>
        let base := (al.get? s).getD (s, 0)
        let hw := (info.shape.drop 2).prod
        .ok (o.outputs.zipIdx.foldl
          (fun al out => al.set out.1 (base.1, base.2 + (out.2 * c * hw : ℕ))) al)
      | _, _ => .error .keyError
  else .ok al

/-- `alias_of` -/
def exportAliases (tensors : Tensors) (sel : List IrOp) : Except AliasError Aliases :=
  sel.foldlM (addExport tensors) PyDict.empty

/-- The calls of a partition: an op without a kernel that is neither a view nor a plain chunk has
no call, and there is no export. -/
def exportCalls (hasSpec : String → Bool) (sel : List IrOp) : Except AliasError (List IrOp) :=
  sel.foldlM (fun calls o =>
    if o.op = "view" ∨ o.op = "chunk2_c1" then .ok calls
    else if hasSpec o.op then .ok (calls ++ [o])
    else .error (.noSpec o.op)) []

/-- The address of a tensor: the buffer, with the offset in elements. -/
def exportAddress (al : Aliases) (t : String) : String × ℤ := (al.get? t).getD (t, 0)

open List

open Composite (ViewsSorted rootIn rootIn_of_mem rootIn_of_notMem)

/-! ### Positions -/

/-- The position of an element in a dense `[N, C, H, W]` buffer. -/
def position (C H W n c h w : ℕ) : ℕ := ((n * C + c) * H + h) * W + w

/-- Element `i` of half `k` is element `j` of the source. -/
def FromHalf (N C H W k i j : ℕ) : Prop :=
  ∃ n c h w, n < N ∧ c < C / 2 ∧ h < H ∧ w < W ∧
    i = position (C / 2) H W n c h w ∧ j = position C H W n (k * (C / 2) + c) h w

/-- The elements of a half in one batch item. -/
def halfSize (C H W : ℕ) : ℕ := C / 2 * H * W

theorem position_eq (C H W n c h w : ℕ) :
    position C H W n c h w = n * (C * H * W) + (c * (H * W) + (h * W + w)) := by
  unfold position
  ring

variable {o : IrOp} {g : IrGraph}

theorem inner_lt {c H W c' h w : ℕ} (hc : c' < c) (hh : h < H) (hw : w < W) :
    c' * (H * W) + (h * W + w) < c * H * W := by
  have hrow : h * W + w < H * W := by
    calc h * W + w < h * W + W := by omega
      _ = (h + 1) * W := by ring
      _ ≤ H * W := Nat.mul_le_mul_right W hh
  calc c' * (H * W) + (h * W + w) < c' * (H * W) + H * W := by omega
    _ = (c' + 1) * (H * W) := by ring
    _ ≤ c * (H * W) := Nat.mul_le_mul_right _ hc
    _ = c * H * W := by ring

/-- Coordinates of an inner position. -/
theorem exists_inner {c H W r : ℕ} (hr : r < c * H * W) :
    ∃ c' h w, c' < c ∧ h < H ∧ w < W ∧ r = c' * (H * W) + (h * W + w) := by
  have hpos : 0 < c * H * W := by omega
  have hW : 0 < W := Nat.pos_of_mul_pos_left hpos
  have hH : 0 < H := Nat.pos_of_mul_pos_left (Nat.pos_of_mul_pos_right hpos)
  refine ⟨r / (H * W), r % (H * W) / W, r % W, ?_, ?_, Nat.mod_lt _ hW, ?_⟩
  · rw [Nat.div_lt_iff_lt_mul (Nat.mul_pos hH hW), ← Nat.mul_assoc]
    exact hr
  · rw [Nat.div_lt_iff_lt_mul hW]
    exact Nat.mod_lt _ (Nat.mul_pos hH hW)
  · have hmod : r % W = r % (H * W) % W := (Nat.mod_mul_left_mod r H W).symm
    rw [hmod, Nat.mul_comm (r % (H * W) / W) W, Nat.div_add_mod, Nat.mul_comm, Nat.div_add_mod]

/-- Behind its start, each half has what is in front of the batch item in halves, and its own part
of the item. -/
theorem fromHalf_iff {N C H W k i j : ℕ} (hC : C % 2 = 0) :
    FromHalf N C H W k i j ↔ i < N * halfSize C H W ∧
      j = k * halfSize C H W + i + i / halfSize C H W * halfSize C H W := by
  obtain ⟨c, rfl⟩ : ∃ c, C = 2 * c := ⟨C / 2, by omega⟩
  have hhalf : 2 * c / 2 = c := by omega
  unfold FromHalf halfSize
  simp only [hhalf, position_eq]
  constructor
  · rintro ⟨n, c', h, w, hn, hc, hh, hw, rfl, rfl⟩
    have hr := inner_lt hc hh hw
    set r := c' * (H * W) + (h * W + w)
    have hdiv : (n * (c * H * W) + r) / (c * H * W) = n := by
      rw [Nat.add_comm, Nat.add_mul_div_right _ _ (by omega), Nat.div_eq_of_lt hr, Nat.zero_add]
    refine ⟨?_, ?_⟩
    · calc n * (c * H * W) + r < n * (c * H * W) + c * H * W := by omega
        _ = (n + 1) * (c * H * W) := by ring
        _ ≤ N * (c * H * W) := Nat.mul_le_mul_right _ hn
    · rw [hdiv]
      ring
  · rintro ⟨hi, rfl⟩
    have hpos : 0 < c * H * W := Nat.pos_of_mul_pos_left (Nat.zero_lt_of_lt hi)
    obtain ⟨c', h, w, hc, hh, hw, hr⟩ := exists_inner (Nat.mod_lt i hpos)
    have hsplit := Nat.div_add_mod i (c * H * W)
    rw [hr] at hsplit
    refine ⟨i / (c * H * W), c', h, w, ?_, hc, hh, hw, ?_, ?_⟩
    · rwa [Nat.div_lt_iff_lt_mul hpos]
    · rw [Nat.mul_comm (i / (c * H * W))]
      exact hsplit.symm
    · calc k * (c * H * W) + i + i / (c * H * W) * (c * H * W)
          = k * (c * H * W) + (c * H * W * (i / (c * H * W)) + (c' * (H * W) + (h * W + w)))
            + i / (c * H * W) * (c * H * W) := by rw [hsplit]
        _ = _ := by ring

/-! ### Reading through views and halves -/

/-- An element of a view is one of its source; so is an element of a half. -/
inductive Moves (tensors : Tensors) (ops : List IrOp) : String × ℕ → String × ℕ → Prop
  | view {o : IrOp} {s t : String} (i : ℕ) : o ∈ ops → o.op = "view" → o.inputs = [s] →
      o.outputs = [t] → Moves tensors ops (t, i) (s, o.offset.getD 0 + i)
  | half {o : IrOp} {s t : String} {info : TensorMeta} {N C H W k i j : ℕ} : o ∈ ops →
      o.IsChunk → o.inputs = [s] → o.outputs[k]? = some t → tensors.get? s = some info →
      info.shape = [N, C, H, W] → FromHalf N C H W k i j → Moves tensors ops (t, i) (s, j)

/-- The element is read through the other. -/
def Through (tensors : Tensors) (ops : List IrOp) : String × ℕ → String × ℕ → Prop :=
  Relation.ReflTransGen (Moves tensors ops)

/-- The tensor is no view and no half. -/
def IsRoot (ops : List IrOp) (t : String) : Prop := ∀ o ∈ ops, o.ZeroCost → t ∉ o.outputs

/-- The element of a root that an element is. -/
def Origin (tensors : Tensors) (ops : List IrOp) (x y : String × ℕ) : Prop :=
  Through tensors ops x y ∧ IsRoot ops y.1

/-- The tensor is a half. -/
def IsHalf (ops : List IrOp) (t : String) : Prop := ∃ o ∈ ops, o.IsChunk ∧ t ∈ o.outputs

/-- The element is in the first item of its batch. -/
def InFirstItem (tensors : Tensors) (x : String × ℕ) : Prop :=
  ∀ info, tensors.get? x.1 = some info → x.2 < (info.shape.drop 1).prod

/-- The element is read in the first batch item of every half that it is read through. -/
def ReadInFirstItems (tensors : Tensors) (ops : List IrOp) (x : String × ℕ) : Prop :=
  ∀ y, Through tensors ops x y → IsHalf ops y.1 → InFirstItem tensors y

/-! ### Extracted graphs -/

/-- The number of elements of a tensor. -/
def numel (tensors : Tensors) (t : String) : ℕ := ((tensors.get? t).map TensorMeta.numel).getD 0

/-- The aliases of an op. -/
def IrOp.aliases (o : IrOp) : List (String × String × ℤ) :=
  if o.op = "view" then
    match o.outputs, o.inputs with
    | t :: _, s :: _ => [(t, s, (o.offset.getD 0 : ℕ))]
    | _, _ => []
  else if o.IsChunk then
    match o.outputs, o.inputs with
    | t :: u :: _, s :: _ =>
      let half := ((o.shape.get? "c_each").getD 0 * (o.shape.get? "H").getD 0 *
        (o.shape.get? "W").getD 0 : ℕ)
      [(t, s, 0), (u, s, half)]
    | _, _ => []
  else []

/-- The aliases of a graph. -/
def aliasList (ops : List IrOp) : List (String × String × ℤ) := ops.flatMap IrOp.aliases

/-- Extraction has made the chunk, and entered its halves. The passes behind it change the kind. -/
def FromExtraction (tensors : Tensors) (o : IrOp) : Prop :=
  ∃ (call : ChunkCall) (after : Tensors),
    extractChunk tensors call = .ok ({ o with op := "chunk2_c1" }, after) ∧
      ∀ t ∈ o.outputs, tensors.get? t = after.get? t

/-- A graph that extraction accepts. -/
structure Extracted (g : IrGraph) : Prop where
  chunks : ∀ o ∈ g.ops, o.IsChunk → FromExtraction g.tensors o
  /-- A view is a window. -/
  views : ∀ o ∈ g.ops, o.op = "view" → ∃ s t, o.inputs = [s] ∧ o.outputs = [t] ∧
    o.offset.getD 0 + numel g.tensors t ≤ numel g.tensors s
  /-- Each tensor is made once, and behind what it is made of. -/
  sorted : ViewsSorted (aliasList g.ops)
  /-- What an op makes is no constant. -/
  consts : ∀ v ∈ aliasList g.ops, (g.tensors.get? v.1).bind TensorMeta.const = none

/-- What extraction makes of a chunk. -/
theorem exists_of_extractChunk {tensors after : Tensors} {call : ChunkCall}
    (h : extractChunk tensors call = .ok (o, after)) :
    ∃ s t u info N C H W, o.inputs = [s] ∧ o.outputs = [t, u] ∧ tensors.get? s = some info ∧
      info.shape = [N, C, H, W] ∧ C % 2 = 0 ∧
      o.shape = PyDict.ofList [("N", N), ("C", C), ("H", H), ("W", W), ("c_each", C / 2)] ∧
      after = (tensors.set t (halfOf info N C H W)).set u (halfOf info N C H W) := by
  unfold extractChunk at h
  dsimp only at h
  split at h
  · cases h
  · split at h
    · cases h
    · rename_i info hinfo
      split at h
      · rename_i N C H W hshape
        split at h
        · cases h
        · rename_i hC
          split at h
          · rename_i gi0 gi1 _ _
            cases h
            exact ⟨call.input, gi0.name, gi1.name, info, N, C, H, W, rfl, rfl, hinfo, hshape,
              by omega, rfl, rfl⟩
          · cases h
      · cases h

/-- A chunk of an extracted graph. -/
theorem Extracted.chunk_spec (hg : Extracted g) (ho : o ∈ g.ops) (hchunk : o.IsChunk) :
    ∃ s t u info N C H W, o.inputs = [s] ∧ o.outputs = [t, u] ∧ g.tensors.get? s = some info ∧
      info.shape = [N, C, H, W] ∧ C % 2 = 0 ∧
      o.aliases = [(t, s, 0), (u, s, ((halfSize C H W : ℕ) : ℤ))] ∧
      o.shape.get? "c_each" = some (C / 2) ∧ o.shape.get? "H" = some H ∧
      o.shape.get? "W" = some W ∧
      ∀ x ∈ o.outputs, g.tensors.get? x = some (halfOf info N C H W) := by
  obtain ⟨call, after, hext, hafter⟩ := hg.chunks o ho hchunk
  obtain ⟨s, t, u, info, N, C, H, W, hin, hout, hinfo, hshape, hC, hsh, rfl⟩ :=
    exists_of_extractChunk hext
  have hview : o.op ≠ "view" := by
    intro hv
    rw [IrOp.IsChunk, hv] at hchunk
    exact absurd hchunk (by decide)
  change o.inputs = [s] at hin
  change o.outputs = [t, u] at hout
  change o.shape = _ at hsh
  have hc : o.shape.get? "c_each" = some (C / 2) := by rw [hsh]; rfl
  have hh : o.shape.get? "H" = some H := by rw [hsh]; rfl
  have hw : o.shape.get? "W" = some W := by rw [hsh]; rfl
  refine ⟨s, t, u, info, N, C, H, W, hin, hout, hinfo, hshape, hC, ?_, hc, hh, hw, ?_⟩
  · unfold IrOp.aliases
    rw [if_neg hview, if_pos hchunk, hout, hin, hc, hh, hw]
    rfl
  · intro x hx
    rw [hafter x hx, PyDict.get?_set]
    split
    · rfl
    · rename_i hne
      rw [hout, mem_pair] at hx
      rcases hx with rfl | rfl
      · exact PyDict.get?_set_self _ _ _
      · exact absurd rfl hne

/-- A view of an extracted graph. -/
theorem Extracted.view_spec (hg : Extracted g) (ho : o ∈ g.ops) (hview : o.op = "view") :
    ∃ s t, o.inputs = [s] ∧ o.outputs = [t] ∧
      o.offset.getD 0 + numel g.tensors t ≤ numel g.tensors s ∧
      o.aliases = [(t, s, ((o.offset.getD 0 : ℕ) : ℤ))] := by
  obtain ⟨s, t, hin, hout, hle⟩ := hg.views o ho hview
  refine ⟨s, t, hin, hout, hle, ?_⟩
  unfold IrOp.aliases
  rw [if_pos hview, hout, hin]

/-- The aliases of an op without a kernel are for its outputs. -/
theorem Extracted.map_aliases (hg : Extracted g) (ho : o ∈ g.ops) (hzero : o.ZeroCost) :
    o.aliases.map Prod.fst = o.outputs := by
  rcases hzero with hview | hchunk
  · obtain ⟨s, t, -, hout, -, hal⟩ := hg.view_spec ho hview
    rw [hal, hout]
    rfl
  · obtain ⟨s, t, u, info, N, C, H, W, -, hout, -, -, -, hal, -⟩ := hg.chunk_spec ho hchunk
    rw [hal, hout]
    rfl

theorem IrOp.aliases_of_not_zeroCost (h : ¬ o.ZeroCost) : o.aliases = [] := by
  unfold IrOp.ZeroCost at h
  rw [not_or] at h
  unfold IrOp.aliases
  rw [if_neg h.1, if_neg h.2]

/-! ### Parts of a graph -/

section
variable {g : IrGraph} (hg : Extracted g) {sel : List IrOp} (hsub : sel.Sublist g.ops)

include hg hsub

theorem Extracted.sorted_of_sublist : ViewsSorted (aliasList sel) :=
  hg.sorted.sublist (hsub.flatMap IrOp.aliases)

variable {t s : String} {o : IrOp} {j i : ℕ} {x y : String × ℕ}

theorem Extracted.isRoot_iff : IsRoot sel t ↔ t ∉ (aliasList sel).map Prod.fst := by
  unfold IsRoot aliasList
  rw [map_flatMap, mem_flatMap]
  constructor
  · rintro h ⟨o, ho, hmem⟩
    by_cases hzero : o.ZeroCost
    · exact h o ho hzero (hg.map_aliases (hsub.subset ho) hzero ▸ hmem)
    · rw [IrOp.aliases_of_not_zeroCost hzero] at hmem
      cases hmem
  · intro h o ho hzero hmem
    exact h ⟨o, ho, (hg.map_aliases (hsub.subset ho) hzero).symm ▸ hmem⟩

/-- A tensor is made by one op. -/
theorem Extracted.eq_of_output {o' : IrOp} (ho : o ∈ sel) (ho' : o' ∈ sel) (hzero : o.ZeroCost)
    (hzero' : o'.ZeroCost) (ht : t ∈ o.outputs) (ht' : t ∈ o'.outputs) : o = o' := by
  by_contra hne
  have hnames := (hg.sorted_of_sublist hsub).names
  rw [aliasList, map_flatMap, nodup_flatMap] at hnames
  have : Std.Symm (Function.onFun List.Disjoint fun o : IrOp => o.aliases.map Prod.fst) :=
    ⟨fun _ _ h => List.Disjoint.symm h⟩
  have hdisjoint := hnames.2.forall ho ho' hne
  apply @hdisjoint t
  · show t ∈ o.aliases.map Prod.fst
    rwa [hg.map_aliases (hsub.subset ho) hzero]
  · show t ∈ o'.aliases.map Prod.fst
    rwa [hg.map_aliases (hsub.subset ho') hzero']

/-- The halves of a chunk are different. -/
theorem Extracted.outputs_nodup (ho : o ∈ sel) (hzero : o.ZeroCost) :
    o.outputs.Nodup := by
  have hnames := (hg.sorted_of_sublist hsub).names
  rw [aliasList, map_flatMap, nodup_flatMap] at hnames
  rw [← hg.map_aliases (hsub.subset ho) hzero]
  exact hnames.1 o ho

/-- The offset of a half. -/
theorem Extracted.half_entry (ho : o ∈ sel) (hchunk : o.IsChunk) {info : TensorMeta} {N C H W k : ℕ}
    (hin : o.inputs = [s]) (hout : o.outputs[k]? = some t) (hinfo : g.tensors.get? s = some info)
    (hshape : info.shape = [N, C, H, W]) :
    C % 2 = 0 ∧ g.tensors.get? t = some (halfOf info N C H W) ∧
      (t, s, ((k * halfSize C H W : ℕ) : ℤ)) ∈ aliasList sel := by
  obtain ⟨s', t', u, info', N', C', H', W', hin', hout', hinfo', hshape', hC, hal, -, -, -, hhalf⟩ :=
    hg.chunk_spec (hsub.subset ho) hchunk
  obtain rfl : s = s' := by
    rw [hin] at hin'
    exact head_eq_of_cons_eq hin'
  obtain rfl : info = info' := Option.some.inj (hinfo.symm.trans hinfo')
  rw [hshape] at hshape'
  obtain ⟨rfl, rfl, rfl, rfl⟩ := hshape'
  refine ⟨hC, hhalf t (mem_of_getElem? hout), mem_flatMap.mpr ⟨o, ho, ?_⟩⟩
  rw [hal]
  rw [hout'] at hout
  match k, hout with
  | 0, hout =>
    obtain rfl := Option.some.inj hout
    simp
  | 1, hout =>
    obtain rfl := Option.some.inj hout
    simp

/-- An element of a view or a half is behind the address that the offset gives, and is there if it
is in the first item of the batch or no half. -/
theorem Extracted.moves_spec (h : Moves g.tensors sel (t, i) (s, j)) :
    ∃ d : ℕ, (t, s, (d : ℤ)) ∈ aliasList sel ∧ d + i ≤ j ∧
      (d + i = j ↔ (IsHalf sel t → InFirstItem g.tensors (t, i))) := by
  cases h with
  | view _ ho hview hin hout =>
    rename_i o
    obtain ⟨s', t', hin', hout', -, hal⟩ := hg.view_spec (hsub.subset ho) hview
    obtain rfl := head_eq_of_cons_eq (hin.symm.trans hin')
    obtain rfl := head_eq_of_cons_eq (hout.symm.trans hout')
    refine ⟨o.offset.getD 0, mem_flatMap.mpr ⟨o, ho, hal ▸ mem_singleton_self _⟩,
      le_rfl, iff_of_true rfl ?_⟩
    rintro ⟨o', ho', hchunk, hmem⟩
    -- a view is no half
    have heq := hg.eq_of_output hsub ho ho' (.inl hview) (.inr hchunk) (hout ▸ by simp) hmem
    rw [← heq, IrOp.IsChunk, hview] at hchunk
    exact absurd hchunk (by decide)
  | half ho hchunk hin hout hinfo hshape hfrom =>
    rename_i o info N C H W k
    obtain ⟨hC, hhalf, hmem⟩ := hg.half_entry hsub ho hchunk hin hout hinfo hshape
    obtain ⟨hlt, rfl⟩ := (fromHalf_iff hC).mp hfrom
    have hpos : 0 < halfSize C H W := Nat.pos_of_mul_pos_left (Nat.zero_lt_of_lt hlt)
    refine ⟨k * halfSize C H W, hmem, Nat.le_add_right _ _, ?_⟩
    have hfirst : InFirstItem g.tensors (t, i) ↔ i < halfSize C H W := by
      have hprod : ((halfOf info N C H W).shape.drop 1).prod = halfSize C H W := by
        show C / 2 * (H * (W * 1)) = C / 2 * H * W
        ring
      rw [← hprod]
      exact ⟨fun h => h _ hhalf, fun h info' hinfo' =>
        Option.some.inj (hhalf.symm.trans hinfo') ▸ h⟩
    have hIsHalf : IsHalf sel t := ⟨o, ho, hchunk, mem_of_getElem? hout⟩
    rw [hfirst]
    constructor
    · intro heq _
      have hzero : i / halfSize C H W * halfSize C H W = 0 := by omega
      rcases Nat.mul_eq_zero.mp hzero with hdiv | hsize
      · exact (Nat.div_eq_zero_iff_lt hpos).mp hdiv
      · omega
    · intro h
      rw [Nat.div_eq_of_lt (h hIsHalf), Nat.zero_mul, Nat.add_zero]

/-- An element is read through one other. -/
theorem Extracted.moves_unique {z : String × ℕ} (hy : Moves g.tensors sel x y)
    (hz : Moves g.tensors sel x z) : y = z := by
  cases hy with
  | view i ho hview hin hout =>
    cases hz with
    | view _ ho' hview' hin' hout' =>
      obtain rfl := hg.eq_of_output hsub ho ho' (.inl hview) (.inl hview')
        (hout ▸ mem_singleton_self _) (hout' ▸ mem_singleton_self _)
      rw [head_eq_of_cons_eq (hin.symm.trans hin')]
    | half ho' hchunk' hin' hout' =>
      obtain rfl := hg.eq_of_output hsub ho ho' (.inl hview) (.inr hchunk') (hout ▸ by simp)
        (mem_of_getElem? hout')
      rw [IrOp.IsChunk, hview] at hchunk'
      exact absurd hchunk' (by decide)
  | half ho hchunk hin hout hinfo hshape hfrom =>
    cases hz with
    | view _ ho' hview' hin' hout' =>
      obtain rfl := hg.eq_of_output hsub ho ho' (.inr hchunk) (.inl hview')
        (mem_of_getElem? hout) (hout' ▸ by simp)
      rw [IrOp.IsChunk, hview'] at hchunk
      exact absurd hchunk (by decide)
    | half ho' hchunk' hin' hout' hinfo' hshape' hfrom' =>
      obtain rfl := hg.eq_of_output hsub ho ho' (.inr hchunk) (.inr hchunk')
        (mem_of_getElem? hout) (mem_of_getElem? hout')
      obtain rfl := head_eq_of_cons_eq (hin.symm.trans hin')
      obtain rfl := Option.some.inj (hinfo.symm.trans hinfo')
      rw [hshape] at hshape'
      obtain ⟨rfl, rfl, rfl, rfl⟩ := hshape'
      have hC := (hg.half_entry hsub ho hchunk hin hout hinfo hshape).1
      -- the halves are different, so it is the same half
      obtain rfl := (getElem?_inj (List.getElem?_eq_some_iff.mp hout).1
        (hg.outputs_nodup hsub ho (.inr hchunk))).mp (hout.trans hout'.symm)
      rw [((fromHalf_iff hC).mp hfrom).2, ((fromHalf_iff hC).mp hfrom').2]

/-! ### Origins -/

/-- A view or a half is read through what it is of. -/
theorem Extracted.exists_moves (ht : ¬ IsRoot sel t) (hi : i < numel g.tensors t) :
    ∃ s j, Moves g.tensors sel (t, i) (s, j) ∧ j < numel g.tensors s := by
  unfold IsRoot at ht
  push Not at ht
  obtain ⟨o, ho, hview | hchunk, hmem⟩ := ht
  · obtain ⟨s, t', hin, hout, hle, -⟩ := hg.view_spec (hsub.subset ho) hview
    obtain rfl : t = t' := by rwa [hout, mem_singleton] at hmem
    exact ⟨s, _, .view i ho hview hin hout, by omega⟩
  · obtain ⟨k, hk⟩ := mem_iff_getElem?.mp hmem
    obtain ⟨s, t', u, info, N, C, H, W, hin, hout, hinfo, hshape, hC, -, -, -, -, hhalf⟩ :=
      hg.chunk_spec (hsub.subset ho) hchunk
    have hnumel : numel g.tensors t = N * halfSize C H W := by
      unfold numel
      rw [hhalf t hmem]
      show N * (C / 2 * (H * (W * 1))) = N * (C / 2 * H * W)
      ring
    have hfrom := (fromHalf_iff hC (N := N) (k := k) (H := H) (W := W)).mpr ⟨hnumel ▸ hi, rfl⟩
    refine ⟨s, _, .half ho hchunk hin hk hinfo hshape hfrom, ?_⟩
    have hk2 : k < 2 := by
      have := (List.getElem?_eq_some_iff.mp hk).1
      rwa [hout] at this
    have hsource : numel g.tensors s = N * (2 * halfSize C H W) := by
      unfold numel halfSize
      rw [hinfo]
      show info.shape.prod = _
      rw [hshape]
      show N * (C * (H * (W * 1))) = _
      calc N * (C * (H * (W * 1))) = N * (2 * (C / 2) * (H * (W * 1))) := by
            rw [Nat.mul_div_cancel' (Nat.dvd_of_mod_eq_zero hC)]
        _ = _ := by ring
    rw [hnumel] at hi
    rw [hsource]
    -- the item of the batch is one of the `N`, and there are two halves in each
    have hpos : 0 < halfSize C H W := Nat.pos_of_mul_pos_left (Nat.zero_lt_of_lt hi)
    have hitem : i / halfSize C H W < N := (Nat.div_lt_iff_lt_mul hpos).mpr hi
    have hsplit := Nat.div_add_mod i (halfSize C H W)
    have hmod := Nat.mod_lt i hpos
    have hk1 : k * halfSize C H W ≤ 1 * halfSize C H W := Nat.mul_le_mul_right _ (by omega)
    have hbatch : (i / halfSize C H W + 1) * (2 * halfSize C H W) ≤ N * (2 * halfSize C H W) :=
      Nat.mul_le_mul_right _ hitem
    calc k * halfSize C H W + i + i / halfSize C H W * halfSize C H W
        < 1 * halfSize C H W + (halfSize C H W * (i / halfSize C H W) + halfSize C H W)
          + i / halfSize C H W * halfSize C H W := by omega
      _ = (i / halfSize C H W + 1) * (2 * halfSize C H W) := by ring
      _ ≤ _ := hbatch

/-- Every element has an origin. -/
theorem Extracted.exists_origin (hi : i < numel g.tensors t) :
    ∃ r j, Origin g.tensors sel (t, i) (r, j) := by
  obtain ⟨rank, -, hrank⟩ := (hg.sorted_of_sublist hsub).exists_rank
  -- the induction goes down the chain of views and halves
  induction hk : rank t using Nat.strong_induction_on generalizing t i with
  | _ k ih =>
    by_cases hroot : IsRoot sel t
    · exact ⟨t, i, .refl, hroot⟩
    · obtain ⟨s, j, hmoves, hj⟩ := hg.exists_moves hsub hroot hi
      obtain ⟨d, hmem, -⟩ := hg.moves_spec hsub hmoves
      obtain ⟨r, j', horigin⟩ := ih (rank s) (hk ▸ hrank _ hmem) hj rfl
      exact ⟨r, j', .head hmoves horigin.1, horigin.2⟩

/-- A root is read through nothing else. -/
theorem Extracted.eq_of_through_root {r : String} (hr : IsRoot sel r)
    (h : Through g.tensors sel (r, j) y) : y = (r, j) := by
  rcases Relation.ReflTransGen.cases_head h with rfl | ⟨⟨s, j'⟩, hmoves, -⟩
  · rfl
  · obtain ⟨d, hmem, -⟩ := hg.moves_spec hsub hmoves
    exact absurd (mem_map_of_mem (f := Prod.fst) hmem) ((hg.isRoot_iff hsub).mp hr)

/-- What is read in first items only is so through the source of a view or a half as well. -/
theorem Extracted.readInFirstItems_iff (h : Moves g.tensors sel x y) :
    ReadInFirstItems g.tensors sel x ↔
      (IsHalf sel x.1 → InFirstItem g.tensors x) ∧ ReadInFirstItems g.tensors sel y := by
  constructor
  · intro hread
    exact ⟨hread x .refl, fun z hz => hread z (.head h hz)⟩
  · rintro ⟨hx, hy⟩ z hz
    rcases Relation.ReflTransGen.cases_head hz with rfl | ⟨w, hmoves, hrest⟩
    · exact hx
    · exact hy z (hg.moves_unique hsub hmoves h ▸ hrest)

/-- The origin is behind the address that the root and its offset give, and is there exactly when
all is read in first items. -/
theorem Extracted.origin_spec (h : Origin g.tensors sel x y) :
    (rootIn (aliasList sel) x.1).1 = y.1 ∧
      (rootIn (aliasList sel) x.1).2 + x.2 ≤ y.2 ∧
      ((rootIn (aliasList sel) x.1).2 + x.2 = y.2 ↔ ReadInFirstItems g.tensors sel x) := by
  obtain ⟨hthrough, hroot⟩ := h
  have hsorted := hg.sorted_of_sublist hsub
  induction hthrough using Relation.ReflTransGen.head_induction_on with
  | refl =>
    rw [rootIn_of_notMem ((hg.isRoot_iff hsub).mp hroot)]
    refine ⟨rfl, by simp, iff_of_true (by simp) fun z hz => ?_⟩
    -- a root is no half
    rw [hg.eq_of_through_root hsub hroot hz]
    rintro ⟨o, ho, hchunk, hmem⟩
    exact absurd hmem (hroot o ho (.inr hchunk))
  | @head a b hmoves _ ih =>
    obtain ⟨d, hmem, hle, hiff⟩ := hg.moves_spec hsub hmoves
    obtain ⟨hbase, hbehind, hthere⟩ := ih
    rw [rootIn_of_mem hsorted hmem, hg.readInFirstItems_iff hsub hmoves, ← hiff, ← hthere]
    dsimp only at hbehind ⊢
    refine ⟨hbase, by omega, by omega⟩

end

end ModelBlaster.Chunk

/-! ## When a chunk without a copy is a chunk -/

namespace ModelBlaster.Chunk

open List PyDict

open Composite (ViewsSorted rootIn rootIn_of_mem rootIn_of_notMem addView exportAlias)

/-! ### What kernels read -/

/-- The element is read through a half. -/
def ThroughHalf (g : IrGraph) (x : String × ℕ) : Prop :=
  ∃ y, Through g.tensors g.ops x y ∧ IsHalf g.ops y.1

/-- Each kernel of the generated program finds the elements of halves where its pointer and their
position say. -/
def EmitReads (g : IrGraph) : Prop :=
  ∀ o ∈ g.ops, ¬ o.ZeroCost → ∀ t ∈ o.inputs, ∀ i < numel g.tensors t, ThroughHalf g (t, i) →
    ∃ r j, Origin g.tensors g.ops (t, i) (r, j) ∧
      ∃ p, emitPtr g t = .ok p ∧ p.base = ownBase g.tensors r ∧ p.offset + i = j

/-- Each kernel of an exported partition does so. What is not made in the partition is loaded. -/
def ExportReads (hasSpec : String → Bool) (g : IrGraph) : Prop :=
  ∀ sel : List IrOp, sel.Sublist g.ops → ∀ al calls, exportAliases g.tensors sel = .ok al →
    exportCalls hasSpec sel = .ok calls → ∀ o ∈ calls, ∀ t ∈ o.inputs, ∀ i < numel g.tensors t,
      ThroughHalf g (t, i) → ∃ r j, Origin g.tensors sel (t, i) (r, j) ∧
        (exportAddress al t).1 = r ∧ (exportAddress al t).2 + i = j

/-- Kernels read elements in the first batch item of every half that they are read through. -/
def ReadsFirstItems (g : IrGraph) : Prop :=
  ∀ o ∈ g.ops, ¬ o.ZeroCost → ∀ t ∈ o.inputs, ∀ i < numel g.tensors t,
    ReadInFirstItems g.tensors g.ops (t, i)

/-! ### The aliases of the generated program -/

/-- The aliases of the ops are in one of the two tables, as their offset says. -/
structure EmitAliases.Spec (d : EmitAliases) (ops : List IrOp) : Prop where
  other : ∀ t, t ∉ (aliasList ops).map Prod.fst →
    d.aliases.get? t = none ∧ d.offsets.get? t = none
  entry : ∀ t s off, (t, s, off) ∈ aliasList ops →
    d.aliases.get? t = some s ∧ d.offsets.get? t = none ∧ off = 0 ∨
      ∃ k : ℕ, d.aliases.get? t = none ∧ d.offsets.get? t = some (s, k) ∧ off = k

theorem aliasList_append_single (ops : List IrOp) (o : IrOp) :
    aliasList (ops ++ [o]) = aliasList ops ++ o.aliases := by
  unfold aliasList
  rw [flatMap_append, flatMap_singleton]

variable {g : IrGraph} {o : IrOp} {t : String} {ops : List IrOp} {hasSpec : String → Bool} {i N : ℕ}

/-- What an op without a kernel makes is new. -/
theorem Extracted.fresh (hg : Extracted g) (hsub : (ops ++ [o]).Sublist g.ops)
    (ht : t ∈ o.aliases.map Prod.fst) :
    t ∉ (aliasList ops).map Prod.fst := by
  have hnames := (hg.sorted_of_sublist hsub).names
  rw [aliasList_append_single, map_append, nodup_append] at hnames
  exact fun hold => hnames.2.2 t hold t ht rfl

/-- One more op is looked at. -/
theorem EmitAliases.Spec.add (hg : Extracted g) (hsub : (ops ++ [o]).Sublist g.ops)
    {d : EmitAliases} (hd : d.Spec ops) :
    ∃ d', d.add o = .ok d' ∧ d'.Spec (ops ++ [o]) := by
  have ho : o ∈ g.ops := hsub.subset (by simp)
  have hfresh := fun t => hg.fresh hsub (t := t)
  -- the new tables have the entries of the op, and agree with the old ones elsewhere
  suffices h : ∃ d', d.add o = .ok d' ∧ (∀ t, t ∉ o.aliases.map Prod.fst →
        d'.aliases.get? t = d.aliases.get? t ∧ d'.offsets.get? t = d.offsets.get? t) ∧
      ∀ t s off, (t, s, off) ∈ o.aliases →
        d'.aliases.get? t = some s ∧ d'.offsets.get? t = none ∧ off = 0 ∨
          ∃ k : ℕ, d'.aliases.get? t = none ∧ d'.offsets.get? t = some (s, k) ∧ off = k by
    obtain ⟨d', hadd, hsame, hnew⟩ := h
    refine ⟨d', hadd, fun t ht => ?_, fun t s off hmem => ?_⟩
    · rw [aliasList_append_single, map_append, mem_append, not_or] at ht
      rw [(hsame t ht.2).1, (hsame t ht.2).2]
      exact hd.other t ht.1
    · rw [aliasList_append_single] at hmem
      rcases mem_append.mp hmem with hold | hlast
      · have hne : t ∉ o.aliases.map Prod.fst := fun hin =>
          hfresh t hin (mem_map_of_mem (f := Prod.fst) hold)
        rw [(hsame t hne).1, (hsame t hne).2]
        exact hd.entry t s off hold
      · exact hnew t s off hlast
  have hnone : ∀ t ∈ o.aliases.map Prod.fst,
      d.aliases.get? t = none ∧ d.offsets.get? t = none := fun t ht => hd.other t (hfresh t ht)
  unfold EmitAliases.add
  by_cases hview : o.op = "view"
  · obtain ⟨s, t, hin, hout, -, hal⟩ := hg.view_spec ho hview
    rw [if_pos hview, hout, hin]
    rw [hal] at hnone ⊢
    obtain ⟨hnoAlias, hnoOffset⟩ := hnone t (by simp)
    by_cases hoff : o.offset.getD 0 ≠ 0
    · refine ⟨_, if_pos hoff, fun x hx => ?_, fun x y off hmem => .inr ?_⟩
      · exact ⟨rfl, get?_set_of_ne _ _ (by simpa using hx)⟩
      · obtain ⟨rfl, rfl, rfl⟩ : x = t ∧ y = s ∧ off = (o.offset.getD 0 : ℕ) := by
          simpa using hmem
        exact ⟨_, hnoAlias, get?_set_self _ _ _, rfl⟩
    · refine ⟨_, if_neg hoff, fun x hx => ?_, fun x y off hmem => .inl ?_⟩
      · exact ⟨get?_set_of_ne _ _ (by simpa using hx), rfl⟩
      · obtain ⟨rfl, rfl, rfl⟩ : x = t ∧ y = s ∧ off = (o.offset.getD 0 : ℕ) := by
          simpa using hmem
        exact ⟨get?_set_self _ _ _, hnoOffset, by omega⟩
  · rw [if_neg hview]
    by_cases hchunk : o.IsChunk
    · obtain ⟨s, t, u, info, N, C, H, W, hin, hout, -, -, -, hal, hc, hh, hw, -⟩ :=
        hg.chunk_spec ho hchunk
      rw [if_pos hchunk, hin, hc, hh, hw, hout]
      have htu : t ≠ u := by
        have hnodup := hg.outputs_nodup (List.Sublist.refl _) ho (.inr hchunk)
        rw [hout] at hnodup
        simpa using hnodup
      rw [hal] at hnone ⊢
      refine ⟨_, rfl, fun x hx => ⟨rfl, ?_⟩, fun x y off hmem => .inr ?_⟩
      · have hx' : x ≠ t ∧ x ≠ u := by simpa using hx
        rw [get?_set_of_ne _ _ hx'.2, get?_set_of_ne _ _ hx'.1]
      · simp only [mem_cons, Prod.mk.injEq, not_mem_nil, or_false] at hmem
        rcases hmem with ⟨rfl, rfl, rfl⟩ | ⟨rfl, rfl, rfl⟩
        · refine ⟨0, (hnone x (by simp)).1, ?_, rfl⟩
          rw [get?_set_of_ne _ _ htu, get?_set_self]
        · exact ⟨_, (hnone x (by simp)).1, get?_set_self _ _ _, rfl⟩
    · rw [if_neg hchunk]
      have hal : o.aliases = [] := IrOp.aliases_of_not_zeroCost (not_or.mpr ⟨hview, hchunk⟩)
      rw [hal]
      exact ⟨d, rfl, fun _ _ => ⟨rfl, rfl⟩, fun _ _ _ hmem => by cases hmem⟩

/-- The tables of a graph. -/
theorem Extracted.emitAliases_spec (hg : Extracted g) :
    ∃ d, emitAliases g.ops = .ok d ∧ d.Spec g.ops := by
  refine Fallible.exists_foldlM_eq_ok (P := fun ops d => EmitAliases.Spec d ops)
    (fun done o rest d hsplit hd => hd.add hg ?_) ?_
  · have hinit := sublist_append_left (done ++ [o]) rest
    rwa [← append_cons, hsplit] at hinit
  · exact ⟨fun _ _ => ⟨rfl, rfl⟩, fun _ _ _ hmem => by cases hmem⟩

/-! ### Pointers -/

section
variable {g : IrGraph} {d : EmitAliases} {rank : String → ℕ}

variable {t : String} {ops : List IrOp} {steps : ℕ}

/-- An alias without an offset has the address of what it is an alias of. -/
theorem EmitAliases.Spec.rootIn_of_alias (hd : d.Spec ops) (hsorted : ViewsSorted (aliasList ops))
    {s : String} (h : d.aliases.get? t = some s) :
    ∃ off, (t, s, off) ∈ aliasList ops ∧ rootIn (aliasList ops) t = rootIn (aliasList ops) s := by
  by_cases hname : t ∈ (aliasList ops).map Prod.fst
  · obtain ⟨⟨t', s', off⟩, hmem, rfl⟩ := mem_map.mp hname
    rcases hd.entry t' s' off hmem with ⟨hal, -, rfl⟩ | ⟨k, hal, -, -⟩
    · obtain rfl := Option.some.inj (hal.symm.trans h)
      refine ⟨0, hmem, ?_⟩
      rw [rootIn_of_mem hsorted hmem, add_zero]
    · exact nomatch hal.symm.trans h
  · exact nomatch (hd.other t hname).1.symm.trans h

/-- The way ends at a tensor that is no alias without an offset. -/
theorem EmitAliases.Spec.resolveAlias_eq (hd : d.Spec ops) (hsorted : ViewsSorted (aliasList ops))
    (hrank : ∀ v ∈ aliasList ops, rank v.2.1 < rank v.1) {seen : List String}
    (hsteps : rank t < steps) (hseen : ∀ x ∈ seen, rank t < rank x) :
    ∃ t', resolveAlias d.aliases steps seen t = .ok t' ∧ d.aliases.get? t' = none ∧
      rank t' ≤ rank t ∧ rootIn (aliasList ops) t' = rootIn (aliasList ops) t := by
  induction steps generalizing t seen with
  | zero => omega
  | succ steps ih =>
    unfold resolveAlias
    cases hget : d.aliases.get? t with
    | none => exact ⟨t, rfl, hget, le_rfl, rfl⟩
    | some s =>
      obtain ⟨off, hmem, hroot⟩ := hd.rootIn_of_alias hsorted hget
      have hlt : rank s < rank t := hrank _ hmem
      -- the rank falls, so nothing is seen twice
      have hfresh : t ∉ seen := fun hin => absurd (hseen t hin) (lt_irrefl _)
      have hseen' : ∀ x ∈ t :: seen, rank s < rank x := by
        intro x hx
        rcases mem_cons.mp hx with rfl | hold
        · exact hlt
        · exact hlt.trans (hseen x hold)
      obtain ⟨t', hres, hnone, hle, heq⟩ := ih (show rank s < steps by omega) hseen'
      exact ⟨t', (if_neg hfresh).trans hres, hnone, hle.trans hlt.le, heq.trans hroot.symm⟩

/-- A pointer adds up the offsets to the root. -/
theorem EmitAliases.Spec.ptrFor_eq (hg : Extracted g) (hd : d.Spec g.ops)
    (hrank : ∀ v ∈ aliasList g.ops, rank v.2.1 < rank v.1) (hsteps : rank t < steps) :
    ∃ p, ptrFor d g.tensors steps t = .ok p ∧
      p.base = ownBase g.tensors (rootIn (aliasList g.ops) t).1 ∧
      (p.offset : ℤ) = (rootIn (aliasList g.ops) t).2 := by
  induction steps generalizing t with
  | zero => omega
  | succ steps ih =>
    obtain ⟨t', hres, hnone, hle, hroot⟩ :=
      hd.resolveAlias_eq hg.sorted hrank hsteps (forall_mem_nil _)
    unfold ptrFor
    rw [hres, ← hroot]
    by_cases hname : t' ∈ (aliasList g.ops).map Prod.fst
    · obtain ⟨⟨x, s, off⟩, hmem, rfl⟩ := mem_map.mp hname
      rcases hd.entry x s off hmem with ⟨hal, -, -⟩ | ⟨k, -, hoff, rfl⟩
      · exact nomatch hal.symm.trans hnone
      · have hlt : rank s < rank x := hrank _ hmem
        obtain ⟨p, hp, hbase, hoffset⟩ := ih (t := s) (by dsimp only at hle; omega)
        dsimp only
        rw [hg.consts _ hmem, hoff]
        dsimp only
        rw [hp, rootIn_of_mem hg.sorted hmem]
        refine ⟨_, rfl, hbase, ?_⟩
        show ((p.offset + k : ℕ) : ℤ) = _
        rw [Nat.cast_add, hoffset]
    · rw [rootIn_of_notMem hname]
      unfold ownBase
      dsimp only
      rw [(hd.other t' hname).2]
      cases (g.tensors.get? t').bind TensorMeta.const with
      | some key => exact ⟨_, rfl, rfl, rfl⟩
      | none => exact ⟨_, rfl, rfl, rfl⟩

end

theorem length_aliasList_le (ops : List IrOp) : (aliasList ops).length ≤ 2 * ops.length := by
  have haliases : ∀ o : IrOp, o.aliases.length ≤ 2 := by
    intro o
    unfold IrOp.aliases
    split
    · split <;> simp
    · split
      · split <;> simp
      · simp
  induction ops with
  | nil => rfl
  | cons o ops ih =>
    have hcons : aliasList (o :: ops) = o.aliases ++ aliasList ops := flatMap_cons
    rw [hcons, length_append, length_cons]
    have := haliases o
    omega

/-- The pointer of the generated program is that of the root, with the offset of the tensor. -/
theorem emitPtr_eq (hg : Extracted g) (t : String) :
    ∃ p, emitPtr g t = .ok p ∧ p.base = ownBase g.tensors (rootIn (aliasList g.ops) t).1 ∧
      (p.offset : ℤ) = (rootIn (aliasList g.ops) t).2 := by
  obtain ⟨d, hd, hspec⟩ := hg.emitAliases_spec
  obtain ⟨rank, hle, hrank⟩ := hg.sorted.exists_rank
  unfold emitPtr
  rw [hd]
  exact hspec.ptrFor_eq hg hrank (Nat.lt_succ_of_le ((hle t).trans (length_aliasList_le g.ops)))

/-! ### The table of the exported partition -/

/-- The aliases of an op are added to the table. -/
theorem Extracted.addExport_eq (hg : Extracted g) (ho : o ∈ g.ops)
    (hplain : o.IsChunk → o.op = "chunk2_c1") (al : Composite.Aliases) :
    addExport g.tensors al o = .ok (o.aliases.foldl addView al) := by
  unfold addExport
  by_cases hview : o.op = "view"
  · obtain ⟨s, t, hin, hout, -, hal⟩ := hg.view_spec ho hview
    rw [if_pos hview, hin, hout, hal]
    rfl
  · rw [if_neg hview]
    by_cases hchunk : o.IsChunk
    · obtain ⟨s, t, u, info, N, C, H, W, hin, hout, hinfo, hshape, -, hal, hc, -, -, -⟩ :=
        hg.chunk_spec ho hchunk
      have hne : s ≠ t := hg.sorted.noSelf (t, s, 0) (mem_flatMap.mpr ⟨o, ho, hal ▸ mem_cons_self⟩)
      rw [if_pos (hplain hchunk), hin, hal, hout]
      dsimp only
      rw [hinfo, hc]
      simp only [zipIdx_cons, zipIdx_nil, foldl_cons, foldl_nil, addView, get?_set_of_ne _ _ hne]
      rw [hshape]
      have hsize : (0 + 1) * (C / 2) * ([N, C, H, W].drop 2).prod = halfSize C H W := by
        show (0 + 1) * (C / 2) * (H * (W * 1)) = C / 2 * H * W
        ring
      rw [hsize]
      simp
    · rw [if_neg fun heq => hchunk (by rw [IrOp.IsChunk, heq]; decide),
        IrOp.aliases_of_not_zeroCost (not_or.mpr ⟨hview, hchunk⟩)]
      rfl

variable {sel : List IrOp}

/-- The table of a partition without other chunks. -/
theorem exportAliases_eq (hg : Extracted g) (hsub : sel.Sublist g.ops)
    (hplain : ∀ o ∈ sel, o.IsChunk → o.op = "chunk2_c1") :
    exportAliases g.tensors sel = .ok (exportAlias (aliasList sel)) := by
  unfold exportAlias aliasList
  rw [foldl_flatMap]
  exact Fallible.foldlM_eq_ok_foldl fun o ho al =>
    hg.addExport_eq (hsub.subset ho) (hplain o ho) al

/-- The ops of the partition are views, plain chunks or ops with a kernel, and the last have
calls. -/
theorem exportCalls_spec {calls : List IrOp} (h : exportCalls hasSpec sel = .ok calls) :
    (∀ o ∈ sel, o.op = "view" ∨ o.op = "chunk2_c1" ∨ hasSpec o.op) ∧
      calls = sel.filter fun o => ¬ (o.op = "view" ∨ o.op = "chunk2_c1") := by
  refine Fallible.foldlM_induction (P := fun done calls =>
    (∀ o ∈ done, o.op = "view" ∨ o.op = "chunk2_c1" ∨ hasSpec o.op) ∧
      calls = done.filter fun o => ¬ (o.op = "view" ∨ o.op = "chunk2_c1"))
    (fun done o calls calls' hdone hstep => ?_) ⟨forall_mem_nil _, rfl⟩ h
  rw [filter_append, filter_singleton, forall_mem_append, forall_mem_singleton]
  obtain ⟨hspecs, rfl⟩ := hdone
  by_cases hzero : o.op = "view" ∨ o.op = "chunk2_c1"
  · rw [if_pos hzero] at hstep
    cases hstep
    refine ⟨⟨hspecs, hzero.imp_right .inl⟩, ?_⟩
    simp [hzero]
  · rw [if_neg hzero] at hstep
    by_cases hspec : hasSpec o.op
    · rw [if_pos hspec] at hstep
      cases hstep
      refine ⟨⟨hspecs, .inr (.inr hspec)⟩, ?_⟩
      simp [hzero]
    · rw [if_neg hspec] at hstep
      cases hstep

/-! ### When halves are read -/

variable {x : String × ℕ}

/-- What the views and halves of a graph do not lead to is not led to by some of them. -/
theorem ReadInFirstItems.sublist (h : ReadInFirstItems g.tensors g.ops x) (hsub : sel.Sublist g.ops)
    :
    ReadInFirstItems g.tensors sel x := by
  intro y hy hhalf
  have hmono : ∀ a b, Moves g.tensors sel a b → Moves g.tensors g.ops a b := by
    intro a b hmoves
    cases hmoves with
    | view i ho => exact .view i (hsub.subset ho) ‹_› ‹_› ‹_›
    | half ho => exact .half (hsub.subset ho) ‹_› ‹_› ‹_› ‹_› ‹_› ‹_›
  obtain ⟨o, ho, hchunk, hmem⟩ := hhalf
  exact h y (Relation.ReflTransGen.mono hmono x y hy) ⟨o, hsub.subset ho, hchunk, hmem⟩

/-- The pointer of an element is that of its origin exactly when all is read in first items. -/
theorem Extracted.emit_element_iff (hg : Extracted g) (hi : i < numel g.tensors t) :
    (∃ r j, Origin g.tensors g.ops (t, i) (r, j) ∧
        ∃ p, emitPtr g t = .ok p ∧ p.base = ownBase g.tensors r ∧ p.offset + i = j) ↔
      ReadInFirstItems g.tensors g.ops (t, i) := by
  have hrefl : g.ops.Sublist g.ops := List.Sublist.refl _
  obtain ⟨p, hp, hbase, hoff⟩ := emitPtr_eq hg t
  constructor
  · rintro ⟨r, j, horigin, p', hp', -, heq⟩
    obtain rfl := Except.ok.inj (hp.symm.trans hp')
    refine (hg.origin_spec hrefl horigin).2.2.mp ?_
    dsimp only
    omega
  · intro hfirst
    obtain ⟨r, j, horigin⟩ := hg.exists_origin hrefl hi
    obtain ⟨hroot, -, hiff⟩ := hg.origin_spec hrefl horigin
    have hthere := hiff.mpr hfirst
    dsimp only at hroot hthere
    refine ⟨r, j, horigin, p, hp, ?_, by omega⟩
    rw [hbase, hroot]

/-- What is read through no half is right. -/
theorem readInFirstItems_of_not_throughHalf (h : ¬ ThroughHalf g x) :
    ReadInFirstItems g.tensors g.ops x :=
  fun y hy hhalf => absurd ⟨y, hy, hhalf⟩ h

/-- The generated program reads halves exactly when it reads first batch items. -/
theorem emitReads_iff (hg : Extracted g) : EmitReads g ↔ ReadsFirstItems g := by
  constructor
  · intro h o ho hkernel t ht i hi
    by_cases hhalf : ThroughHalf g (t, i)
    · exact (hg.emit_element_iff hi).mp (h o ho hkernel t ht i hi hhalf)
    · exact readInFirstItems_of_not_throughHalf hhalf
  · intro h o ho hkernel t ht i hi _
    exact (hg.emit_element_iff hi).mpr (h o ho hkernel t ht i hi)

/-- The address in an exported partition is that of the origin exactly when all is read in first
items. -/
theorem Extracted.export_element_iff (hg : Extracted g) (hsub : sel.Sublist g.ops)
    (hi : i < numel g.tensors t) :
    (∃ r j, Origin g.tensors sel (t, i) (r, j) ∧
        (exportAddress (exportAlias (aliasList sel)) t).1 = r ∧
        (exportAddress (exportAlias (aliasList sel)) t).2 + i = j) ↔
      ReadInFirstItems g.tensors sel (t, i) := by
  constructor
  · rintro ⟨r, j, horigin, -, heq⟩
    exact (hg.origin_spec hsub horigin).2.2.mp heq
  · intro hfirst
    obtain ⟨r, j, horigin⟩ := hg.exists_origin hsub hi
    obtain ⟨hroot, -, hiff⟩ := hg.origin_spec hsub horigin
    exact ⟨r, j, horigin, hroot, hiff.mpr hfirst⟩

/-- Exported partitions read halves if kernels read first batch items. -/
theorem exportReads_of_readsFirstItems (hg : Extracted g)
    (hspec : ∀ kind ∈ chunkKinds, hasSpec kind = false) (h : ReadsFirstItems g) :
    ExportReads hasSpec g := by
  intro sel hsub al calls hal hcalls o ho t ht i hi _
  obtain ⟨hkinds, rfl⟩ := exportCalls_spec hcalls
  -- a chunk of another kind has no kernel, so nothing is exported
  have hplain : ∀ o ∈ sel, o.IsChunk → o.op = "chunk2_c1" := by
    intro o ho hchunk
    rcases hkinds o ho with hview | hplain | hkernel
    · rw [IrOp.IsChunk, hview] at hchunk
      exact absurd hchunk (by decide)
    · exact hplain
    · rw [hspec o.op hchunk] at hkernel
      cases hkernel
  obtain rfl := Except.ok.inj ((exportAliases_eq hg hsub hplain).symm.trans hal)
  rw [mem_filter, decide_eq_true_eq, not_or] at ho
  have hkernel : ¬ o.ZeroCost := by
    rintro (hview | hchunk)
    · exact ho.2.1 hview
    · exact ho.2.2 (hplain o ho.1 hchunk)
  have hfirst := h o (hsub.subset ho.1) hkernel t ht i hi
  exact (hg.export_element_iff hsub hi).mpr (hfirst.sublist hsub)

/-- In both programs kernels read the elements of halves where they are exactly when they read
first batch items. -/
theorem chunkReads_iff {g : IrGraph} (hg : Extracted g) {hasSpec : String → Bool}
    (hspec : ∀ kind ∈ chunkKinds, hasSpec kind = false) :
    EmitReads g ∧ ExportReads hasSpec g ↔ ReadsFirstItems g := by
  rw [emitReads_iff hg]
  exact ⟨And.left, fun h => ⟨h, exportReads_of_readsFirstItems hg hspec h⟩⟩

/-! ### Batches of one item -/

/-- What is read through is an element of its tensor. -/
theorem Extracted.lt_of_through (hg : Extracted g) {y : String × ℕ}
    (h : Through g.tensors g.ops x y) (hx : x.2 < numel g.tensors x.1) :
    y.2 < numel g.tensors y.1 := by
  have hrefl : g.ops.Sublist g.ops := List.Sublist.refl _
  induction h with
  | refl => exact hx
  | @tail b c _ hmoves ih =>
    have hroot : ¬ IsRoot g.ops b.1 := by
      obtain ⟨d, hmem, -⟩ := hg.moves_spec hrefl hmoves
      rw [hg.isRoot_iff hrefl, not_not]
      exact mem_map_of_mem (f := Prod.fst) hmem
    obtain ⟨s, j, hmoves', hlt⟩ := hg.exists_moves hrefl hroot ih
    rw [hg.moves_unique hrefl hmoves hmoves']
    exact hlt

/-- With one item in the batch of each chunk, kernels read first batch items only. -/
theorem readsFirstItems_of_one (hg : Extracted g)
    (hone : ∀ o ∈ g.ops, o.IsChunk → ∀ s ∈ o.inputs, ∀ info, g.tensors.get? s = some info → info.shape.head? = some 1)
    :
    ReadsFirstItems g := by
  rintro - - - t - i hi y hy ⟨o, ho, hchunk, hmem⟩ info' hinfo'
  have hlt := hg.lt_of_through hy hi
  obtain ⟨s, -, -, info, N, C, H, W, hin, -, hinfo, hshape, -, -, -, -, -, hhalf⟩ :=
    hg.chunk_spec ho hchunk
  have hN := hone o ho hchunk s (hin ▸ mem_singleton_self s) info hinfo
  rw [hshape] at hN
  obtain rfl : N = 1 := Option.some.inj hN
  obtain rfl := Option.some.inj (hinfo'.symm.trans (hhalf y.1 hmem))
  unfold numel at hlt
  rw [hinfo'] at hlt
  have hprod : (halfOf info 1 C H W).numel = ((halfOf info 1 C H W).shape.drop 1).prod :=
    Nat.one_mul _
  exact hprod ▸ hlt

/-- The tensors of `splitGraph`. -/
def splitTensors (N : ℕ) : List (String × TensorMeta) :=
  [("x", { shape := [N, 2, 1, 1], dtype := "i8" }),
    ("a", { shape := [N, 1, 1, 1], dtype := "i8" }),
    ("b", { shape := [N, 1, 1, 1], dtype := "i8" }),
    ("v", { shape := [N, 1], dtype := "i8" }),
    ("r", { shape := [N, 1, 1, 1], dtype := "i8" }),
    ("q", { shape := [N, 1], dtype := "i8" })]

/-- A chunk of two channels. -/
def splitChunk (N : ℕ) : IrOp where
  name := "c"
  op := "chunk2_c1"
  inputs := ["x"]
  outputs := ["a", "b"]
  shape := PyDict.ofList [("N", N), ("C", 2), ("H", 1), ("W", 1), ("c_each", 1)]

/-- Both halves of two channels are rectified, the second one behind a flatten. -/
def splitGraph (N : ℕ) : IrGraph where
  tensors := PyDict.ofList (splitTensors N)
  ops :=
    [splitChunk N,
      { name := "v", op := "view", inputs := ["b"], outputs := ["v"] },
      { name := "r", op := "relu_s8", inputs := ["a"], outputs := ["r"] },
      { name := "q", op := "relu_s8", inputs := ["v"], outputs := ["q"] }]

/-- There is a kernel for `relu_s8` only. -/
def reluSpec (kind : String) : Bool := kind = "relu_s8"

theorem tensors_splitGraph (N : ℕ) : (splitGraph N).tensors = PyDict.ofList (splitTensors N) := by
  rfl

theorem get?_splitTensors {info : TensorMeta} (h : (t, info) ∈ splitTensors N) :
    (splitGraph N).tensors.get? t = some info := by
  have hnames : ((splitTensors N).map Prod.fst).Nodup := by simp [splitTensors]
  rw [tensors_splitGraph, get?_ofList_iff hnames]
  exact h

theorem isChunk_splitGraph (ho : o ∈ (splitGraph N).ops) (hchunk : o.IsChunk) :
    o = splitChunk N := by
  simp only [splitGraph, mem_cons, not_mem_nil, or_false] at ho
  rcases ho with rfl | rfl | rfl | rfl
  · rfl
  all_goals exact absurd hchunk (by decide)

theorem aliasList_splitGraph (N : ℕ) :
    aliasList (splitGraph N).ops = [("a", "x", 0), ("b", "x", 1), ("v", "b", 0)] := by
  have hget : ∀ {k : String} {n : ℕ}, (k, n) ∈ [("N", N), ("C", 2), ("H", 1), ("W", 1),
      ("c_each", 1)] → (splitChunk N).shape.get? k = some n := by
    intro k n h
    have hshape : (splitChunk N).shape = PyDict.ofList [("N", N), ("C", 2), ("H", 1), ("W", 1),
      ("c_each", 1)] := rfl
    rw [hshape, get?_ofList_iff (by simp)]
    exact h
  have hchunk : (splitChunk N).aliases = [("a", "x", 0), ("b", "x", 1)] := by
    unfold IrOp.aliases
    rw [if_neg (show (splitChunk N).op ≠ "view" from (by decide : "chunk2_c1" ≠ "view")),
      if_pos (show (splitChunk N).IsChunk from (by decide : "chunk2_c1" ∈ chunkKinds)),
      hget (k := "c_each") (n := 1) (by simp), hget (k := "H") (n := 1) (by simp),
      hget (k := "W") (n := 1) (by simp)]
    rfl
  show (splitChunk N).aliases ++ [("v", "b", 0)] = _
  rw [hchunk]
  rfl

/-- Extraction makes the chunk. -/
theorem fromExtraction_splitChunk (N : ℕ) :
    FromExtraction (splitGraph N).tensors (splitChunk N) := by
  let half : TensorMeta := { shape := [N, 1, 1, 1], dtype := "i8" }
  have hx := get?_splitTensors (N := N) (t := "x") mem_cons_self
  refine ⟨{ name := "c", input := "x", chunks := 2, dimArg := some 1
            users := [⟨"a", some 0⟩, ⟨"b", some 1⟩] },
    ((splitGraph N).tensors.set "a" half).set "b" half, ?_, fun t ht => ?_⟩
  · unfold extractChunk
    rw [hx]
    rfl
  · rcases mem_pair.mp ht with rfl | rfl
    · rw [get?_set_of_ne _ _ (by decide), get?_set_self]
      exact get?_splitTensors (by simp [splitTensors, half])
    · rw [get?_set_self]
      exact get?_splitTensors (by simp [splitTensors, half])

theorem extracted_splitGraph (N : ℕ) : Extracted (splitGraph N) where
  chunks := by
    intro o ho hchunk
    rw [isChunk_splitGraph ho hchunk]
    exact fromExtraction_splitChunk N
  views := by
    intro o ho hview
    simp only [splitGraph, mem_cons, not_mem_nil, or_false] at ho
    rcases ho with rfl | rfl | rfl | rfl
    · exact absurd (show "chunk2_c1" = "view" from hview) (by decide)
    · refine ⟨"b", "v", rfl, rfl, ?_⟩
      unfold numel
      have hv : ("v", { shape := [N, 1], dtype := "i8" }) ∈ splitTensors N := by
        simp [splitTensors]
      have hb : ("b", { shape := [N, 1, 1, 1], dtype := "i8" }) ∈ splitTensors N := by
        simp [splitTensors]
      rw [get?_splitTensors hv, get?_splitTensors hb]
      show 0 + N * (1 * 1) ≤ N * (1 * (1 * (1 * 1)))
      omega
    all_goals exact absurd hview (by decide)
  sorted := by
    rw [aliasList_splitGraph]
    exact ⟨by decide, by decide, by decide⟩
  consts := by
    intro v _
    have hno : ∀ e ∈ splitTensors N, e.2.const = none := by simp [splitTensors]
    cases hget : (splitGraph N).tensors.get? v.1 with
    | none => rfl
    | some info =>
      rw [tensors_splitGraph] at hget
      exact hno _ (mem_of_get?_ofList hget)

theorem chunkReads_splitGraph_one :
    EmitReads (splitGraph 1) ∧ ExportReads reluSpec (splitGraph 1) := by
  refine (chunkReads_iff (extracted_splitGraph 1) (by decide)).mpr
    (readsFirstItems_of_one (extracted_splitGraph 1) fun o ho hchunk s hs info hinfo => ?_)
  rw [isChunk_splitGraph ho hchunk] at hs
  obtain rfl := mem_singleton.mp hs
  have hx := get?_splitTensors (N := 1) (t := "x") mem_cons_self
  obtain rfl := Option.some.inj (hx.symm.trans hinfo)
  rfl

/-- With two items in the batch, neither program finds the second item of the first half. -/
theorem not_chunkReads_splitGraph_two :
    ¬ EmitReads (splitGraph 2) ∧ ¬ ExportReads reluSpec (splitGraph 2) := by
  have hg := extracted_splitGraph 2
  have ha : (splitGraph 2).tensors.get? "a" = some { shape := [2, 1, 1, 1], dtype := "i8" } :=
    get?_splitTensors (by simp [splitTensors])
  have hsecond : ¬ ReadInFirstItems (splitGraph 2).tensors (splitGraph 2).ops ("a", 1) := by
    intro h
    have hfirst := h ("a", 1) .refl ⟨_, mem_cons_self, by decide, mem_cons_self⟩
      { shape := [2, 1, 1, 1], dtype := "i8" } ha
    exact absurd hfirst (by decide)
  have hi : 1 < numel (splitGraph 2).tensors "a" := by
    unfold numel
    rw [ha]
    decide
  have hhalf : ThroughHalf (splitGraph 2) ("a", 1) :=
    ⟨("a", 1), .refl, _, mem_cons_self, by decide, mem_cons_self⟩
  have hrelu : (splitGraph 2).ops[2]? =
    some { name := "r", op := "relu_s8", inputs := ["a"], outputs := ["r"] } := rfl
  have hmem := mem_of_getElem? hrelu
  constructor
  · intro h
    exact hsecond ((hg.emit_element_iff hi).mp (h _ hmem (by decide) "a" mem_cons_self 1 hi hhalf))
  · intro h
    have hplain : ∀ o ∈ (splitGraph 2).ops, o.IsChunk → o.op = "chunk2_c1" :=
      fun o ho hchunk => isChunk_splitGraph ho hchunk ▸ rfl
    have hal := exportAliases_eq hg (List.Sublist.refl _) hplain
    refine hsecond ((hg.export_element_iff (List.Sublist.refl _) hi).mp
      (h _ (List.Sublist.refl _) _ _ hal rfl _ mem_cons_self "a" mem_cons_self 1 hi hhalf))

end ModelBlaster.Chunk

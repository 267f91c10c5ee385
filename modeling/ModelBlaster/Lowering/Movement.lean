import Mathlib.Data.Rat.Floor
import ModelBlaster.Library.PyDict
import ModelBlaster.Library.PyList
import ModelBlaster.Library.Rounding
import ModelBlaster.Library.Strided
import ModelBlaster.Library.TwosComplement

/-!
# Data movement

`generic_lowering` does not know what a movement does. It executes the movement on tensors whose
elements are numbered over all sources, and decodes the numbers that come out. From them it makes a
view, a strided copy, or a gather from the sources one after the other.

## Main definitions

* `Movement`: a function that places elements of its arguments, or fill values;
* `MoveNode`: a node of the traced graph that moves data;
* `lowerMovement`: the ops that the lowering appends;
* `evalOps`: what ops compute;
* `Source`: where an element comes from;
* `MoveNode.sources`, `MoveNode.value`: the result of a node, by names and by values;
* `code`: the number of an element in a probe.

## Main results

* `MoveNode.value_eq`: the value has the values of the sources;
* `exists_of_applyNode`: the probe has the numbers of the sources.
-/

namespace ModelBlaster.Lowering

open TwosComplement

/-! ### Values -/

/-- A float. -/
inductive TorchFloat where
  | num (q : ℚ)
  | posInf
  | negInf
  | nan
deriving DecidableEq

/-- The zero that a gather reads for a negative index. -/
abbrev TorchFloat.zero : TorchFloat := .num 0

/-- `torch.round`, then `.to(torch.int64)`: what is no number, or does not fit, becomes the
smallest. -/
def TorchFloat.toInt64 : TorchFloat → ℤ
  | .num q => if Fits 64 (Rounding.halfEven q) then Rounding.halfEven q else -2 ^ 63
  | _ => -2 ^ 63

/-- The index that an element of a probe is decoded as. -/
def decode (v : TorchFloat) : ℤ := wrap 64 (v.toInt64 - 1)

/-! ### Movements -/

/-- Where an element of a result comes from: an element of an argument, or a fill value. -/
inductive Placed where
  | elem (arg k : ℕ)
  | fill (v : TorchFloat)
deriving DecidableEq

/-- A function that moves data, for the shapes of its arguments. It may refuse them. -/
structure Movement where
  shape : List (List ℕ) → Option (List ℕ)
  place : List (List ℕ) → List Placed
  /-- There is an element for each position of the result. -/
  size : ∀ ins out, shape ins = some out → (place ins).length = out.prod
  /-- Elements are of the arguments. -/
  inside : ∀ ins out, shape ins = some out → ∀ arg k, .elem arg k ∈ place ins →
    ∃ s, ins[arg]? = some s ∧ k < s.prod

/-- No fill value is placed. -/
def Movement.NoFill (f : Movement) : Prop := ∀ ins v, .fill v ∉ f.place ins

section
variable {α : Type}

/-- The element that is placed. -/
def readPlaced (fillOf : TorchFloat → α) (args : List (NdArray α)) : Placed → α
  | .elem arg k => ((args[arg]?.bind fun a => a.data[k]?)).getD (fillOf .nan)
  | .fill v => fillOf v

/-- A movement of tensors. -/
def Movement.run (f : Movement) (fillOf : TorchFloat → α) (args : List (NdArray α)) :
    Option (NdArray α) :=
  match h : f.shape (args.map NdArray.shape) with
  | none => none
  | some out => some
      { shape := out
        data := (f.place (args.map NdArray.shape)).map (readPlaced fillOf args)
        size_eq := by rw [List.length_map, f.size _ _ h] }

end

/-! ### Nodes -/

/-- An argument of a movement. -/
inductive MoveArg where
  | tensor (name : String)
  /-- `torch.empty`, in place of an argument that only supplies a shape. -/
  | shapeOnly (shape : List ℕ)
  /-- An item of what `split`, `chunk` or `unbind` gives, which is no tensor of the graph. -/
  | item (f : Movement) (arg : MoveArg)

/-- A call that moves data. -/
inductive MoveCall where
  | call (f : Movement) (args : List MoveArg)
  /-- `mb_setitem` with a scalar value, which is routed through a constant of one element. -/
  | setScalar (f : Movement) (arg : MoveArg) (v : TorchFloat)

/-- A node that moves data. -/
structure MoveNode where
  name : String
  call : MoveCall
  /-- The shape in the metadata. -/
  metaShape : List ℕ
  graphOutput : Bool

/-! ### Lowered ops -/

/-- An op of the IR. -/
inductive LoweredOp where
  | view (src out : String) (n : ℕ) (offset : ℤ)
  | stridedCopy (src out : String) (off : ℤ) (dims : List ℕ) (strides : List ℤ)
  | catn (inputs : List String) (out : String) (outer inner : ℕ) (cs : List ℕ)
  | gather (src index out : String) (n : ℕ)
deriving DecidableEq

/-- The data of a constant. -/
inductive ConstData where
  | floats (data : List TorchFloat)
  | ints (data : List ℤ)
deriving DecidableEq

/-- What the lowering has made. -/
structure LowerState where
  /-- The shapes of the tensors. -/
  tensors : PyDict String (List ℕ)
  /-- The data of the tensors that are constants, `weights`. -/
  consts : PyDict String ConstData
  tmp : ℕ
  ops : List LoweredOp

/-- Why a node is not lowered. -/
inductive LowerError where
  | cannotSeeThrough (name : String)
  | refused
  | noTensorInput (node : String)
  | probeShape (node : String)
  | rank (n : ℕ)
deriving DecidableEq, Repr

/-! ### Probes -/

/-- The stand-ins of the tensors. -/
abbrev Roots : Type := PyDict String (NdArray TorchFloat)

/-- The elements of the stand-ins. -/
def Roots.total (roots : Roots) : ℕ := (roots.items.map fun item => item.2.data.length).sum

/-- A stand-in: its elements are numbered from `base + 1` on. -/
def standIn (shape : List ℕ) (base : ℕ) : NdArray TorchFloat where
  shape := shape
  data := (List.range shape.prod).map fun k => .num (base + k + 1 : ℕ)
  size_eq := by rw [List.length_map, List.length_range]

/-- `_root` -/
def rootOf (name : String) (shape : List ℕ) (roots : Roots) : NdArray TorchFloat × Roots :=
  match roots.get? name with
  | some a => (a, roots)
  | none =>
    let a := standIn shape roots.total
    (a, roots.set name a)

/-- `torch.empty`; the elements are not looked at. -/
def uninitialised {α : Type} (shape : List ℕ) (x : α) : NdArray α where
  shape := shape
  data := List.replicate shape.prod x
  size_eq := List.length_replicate

/-- `_probe` -/
def probe (tensors : PyDict String (List ℕ)) :
    MoveArg → Roots → Except LowerError (NdArray TorchFloat × Roots)
  | .tensor name, roots =>
    match tensors.get? name with
    | none => .error (.cannotSeeThrough name)
    | some shape => .ok (rootOf name shape roots)
  | .shapeOnly shape, roots => .ok (uninitialised shape .zero, roots)
  | .item f arg, roots =>
    match probe tensors arg roots with
    | .error e => .error e
    | .ok (x, roots) =>
      match f.run id [x] with
      | none => .error .refused
      | some y => .ok (y, roots)

/-- The arguments are probed one after the other. -/
def probeAll (tensors : PyDict String (List ℕ)) :
    List MoveArg → Roots → Except LowerError (List (NdArray TorchFloat) × Roots)
  | [], roots => .ok ([], roots)
  | arg :: args, roots =>
    match probe tensors arg roots with
    | .error e => .error e
    | .ok (x, roots) =>
      match probeAll tensors args roots with
      | .error e => .error e
      | .ok (xs, roots) => .ok (x :: xs, roots)

/-- The constant that a scalar is routed through. -/
def scalarName (node : String) : String := node ++ "__v0"

/-- `_const` -/
def LowerState.addConst (st : LowerState) (name : String) (shape : List ℕ) (data : ConstData) :
    LowerState :=
  { st with tensors := st.tensors.set name shape, consts := st.consts.set name data }

/-- `root[0]` of a constant of one element. -/
def firstElement (a : NdArray TorchFloat) : NdArray TorchFloat where
  shape := []
  data := [a.data.headD .nan]
  size_eq := rfl

/-- `_apply` -/
def applyNode (st : LowerState) (node : MoveNode) :
    Except LowerError (NdArray TorchFloat × Roots × LowerState) :=
  match node.call with
  | .call f args =>
    match probeAll st.tensors args PyDict.empty with
    | .error e => .error e
    | .ok (xs, roots) =>
      match f.run id xs with
      | none => .error .refused
      | some val => .ok (val, roots, st)
  | .setScalar f arg v =>
    let c := scalarName node.name
    let st := st.addConst c [1] (.floats [v])
    match probe st.tensors arg PyDict.empty with
    | .error e => .error e
    | .ok (x, roots) =>
      let (a, roots) := rootOf c [1] roots
      match f.run id [x, firstElement a] with
      | none => .error .refused
      | some val => .ok (val, roots, st)

/-! ### Emission -/

/-- The number of axes that a kernel takes. -/
def maxRank : ℕ := 6

/-- `_new` -/
def LowerState.newTensor (st : LowerState) (base : String) (shape : List ℕ) : String × LowerState :=
  let name := base ++ "__g" ++ toString (st.tmp + 1)
  (name, { st with tensors := st.tensors.set name shape, tmp := st.tmp + 1 })

/-- `_emit` -/
def LowerState.emit (st : LowerState) (op : LoweredOp) : LowerState :=
  { st with ops := st.ops ++ [op] }

/-- `out_name or self._new(base, out_shape)`, entered if it is not. -/
def LowerState.outTensor (st : LowerState) (base : String) (shape : List ℕ) (out : Option String) :
    String × LowerState :=
  match out with
  | none => st.newTensor base shape
  | some name =>
    (name, if (st.tensors.get? name).isSome then st
      else { st with tensors := st.tensors.set name shape })

/-- `_merge_dims`, with one set of strides. -/
def mergeDims (shape : List ℕ) (strides : List ℤ) : List (ℕ × ℤ) :=
  Strided.merge (shape.zip strides)

/-- The box is a part of the memory in one piece. -/
def isContiguous : List (ℕ × ℤ) → Bool
  | [] => true
  | [(_, s)] => s = 1
  | _ => false

/-- `_pad6` -/
def padDims (box : List (ℕ × ℤ)) : List (ℕ × ℤ) :=
  List.replicate (maxRank - box.length) (1, 0) ++ box

/-- `copy_affine` -/
def copyAffine (st : LowerState) (base src : String) (outShape : List ℕ) (off : ℤ)
    (strides : List ℤ) (outName : Option String) (forceCopy : Bool) :
    Except LowerError (String × LowerState) :=
  let (out, st) := st.outTensor base outShape outName
  let box := mergeDims outShape strides
  if isContiguous box ∧ forceCopy = false then
    .ok (out, st.emit (.view src out outShape.prod off))
  else if maxRank < box.length then .error (.rank box.length)
  else
    let box := padDims box
    .ok (out, st.emit (.stridedCopy src out off (box.map Prod.fst) (box.map Prod.snd)))

/-- `reshape` -/
def reshape (st : LowerState) (base src : String) (shape : List ℕ) :
    Except LowerError (String × LowerState) :=
  copyAffine st base src shape 0 (Strided.contiguous shape) none false

/-- `[parts[i:i + 8] for i in range(0, len(parts), 8)]` -/
def groupsOf8 {α : Type} (parts : List α) : List (List α) :=
  (List.range ((parts.length + 7) / 8)).map fun i => (parts.drop (8 * i)).take 8

/-- One `catn` for at most eight parts. -/
def emitCatn (st : LowerState) (base : String) (parts : List (String × ℕ)) (outer inner : ℕ)
    (outShape : List ℕ) : String × LowerState :=
  let (out, st) := st.newTensor base outShape
  (out, st.emit (.catn (parts.map Prod.fst) out outer inner (parts.map Prod.snd)))

/-- One `catn` for each group. -/
def catGroups (base : String) (outer inner : ℕ) (st : LowerState) :
    List (List (String × ℕ)) → List (String × ℕ) × LowerState
  | [] => ([], st)
  | group :: groups =>
    let c := (group.map Prod.snd).sum
    let (t, st) := emitCatn st base group outer inner [outer, c, inner]
    let (parts, st) := catGroups base outer inner st groups
    ((t, c) :: parts, st)

/-- `_catn`. Each round leaves an eighth of the parts. -/
def catn (base : String) (outer inner : ℕ) (outShape : List ℕ) :
    ℕ → List (String × ℕ) → LowerState → String × LowerState
  | 0, parts, st => emitCatn st base parts outer inner outShape
  | rounds + 1, parts, st =>
    if 8 < parts.length then
      let (parts, st) := catGroups base outer inner st (groupsOf8 parts)
      catn base outer inner outShape rounds parts st
    else emitCatn st base parts outer inner outShape

/-- `_affine` -/
def affine (shape : List ℕ) (idx : List ℤ) : Option (ℤ × List ℤ) :=
  match idx with
  | [] => none
  | off :: _ =>
    let strides := shape.zipIdx.map fun sd =>
      if sd.1 = 1 then 0
      else idx.getD (NdArray.ravel shape (Strided.unit shape.length sd.2)) 0 - off
    let grid := (Strided.offsets (shape.zip strides)).map fun x => off + x
    if grid = idx then some (off, strides) else none

/-- The key of the table of a gather. -/
def indexName (base : String) : String := base ++ "__idx"

/-- A gather, with its table of 32-bit indices. -/
def emitGather (st : LowerState) (base src out : String) (idx : List ℤ) : LowerState :=
  let key := indexName base
  (st.addConst key [idx.length] (.ints (idx.map (wrap 32)))).emit (.gather src key out idx.length)

/-- The sources are made flat. -/
def flattenRoots (base : String) : List (String × NdArray TorchFloat) → LowerState →
    Except LowerError (List (String × ℕ) × LowerState)
  | [], st => .ok ([], st)
  | (name, a) :: roots, st =>
    if a.shape.length = 1 then
      match flattenRoots base roots st with
      | .error e => .error e
      | .ok (parts, st) => .ok ((name, a.shape.prod) :: parts, st)
    else
      match reshape st base name [a.shape.prod] with
      | .error e => .error e
      | .ok (t, st) =>
        match flattenRoots base roots st with
        | .error e => .error e
        | .ok (parts, st) => .ok ((t, a.shape.prod) :: parts, st)

/-- `_emit_moved` -/
def emitMoved (st : LowerState) (base : String) (roots : Roots) (val : NdArray TorchFloat)
    (outShape : List ℕ) (out : String) (forceCopy : Bool) : Except LowerError LowerState :=
  let idx := val.data.map decode
  if val.shape ≠ outShape then .error (.probeShape base)
  else
    match roots.items with
    | [(src, _)] =>
      match if idx.any fun x => x < 0 then none else affine val.shape idx with
      | some (off, strides) =>
        match copyAffine st base src outShape off strides (some out) forceCopy with
        | .error e => .error e
        | .ok (_, st) => .ok st
      | none => .ok (emitGather st base src out idx)
    | items =>
      match flattenRoots base items st with
      | .error e => .error e
      | .ok (parts, st) =>
        let (cat, st) := catn base 1 1 [roots.total] parts.length parts st
        .ok (emitGather st base cat out idx)

/-- `_lower_movement`, for a node whose value is a tensor. -/
def lowerMovement (st : LowerState) (node : MoveNode) : Except LowerError LowerState :=
  match applyNode st node with
  | .error e => .error e
  | .ok (val, roots, st) =>
    if roots.items = [] then .error (.noTensorInput node.name)
    else
      let st := { st with tensors := st.tensors.set node.name node.metaShape }
      emitMoved st node.name roots val node.metaShape node.name node.graphOutput

/-! ### What ops compute -/

/-- All elements, if they are there. -/
def collect {α : Type} : List (Option α) → Option (List α)
  | [] => some []
  | none :: _ => none
  | some x :: xs => (collect xs).map (x :: ·)

/-- An element of a buffer. -/
def readAt (data : List TorchFloat) (i : ℤ) : Option TorchFloat :=
  if 0 ≤ i then data[i.toNat]? else none

/-- The buffers of tensors. -/
abbrev Store : Type := String → Option (List TorchFloat)

/-- The data of a tensor, which may be a constant. -/
def readTensor (consts : PyDict String ConstData) (σ : Store) (t : String) :
    Option (List TorchFloat) :=
  match σ t, consts.get? t with
  | some data, _ => some data
  | none, some (.floats data) => some data
  | none, _ => none

/-- The result of an op: its buffer and the elements. What reads behind the end of a buffer has no
result. -/
def evalOp (consts : PyDict String ConstData) (σ : Store) :
    LoweredOp → Option (String × List TorchFloat)
  | .view src out n off =>
    (readTensor consts σ src).bind fun data =>
      (collect ((List.range n).map fun i : ℕ => readAt data (off + i))).map fun vals => (out, vals)
  | .stridedCopy src out off dims strides =>
    (readTensor consts σ src).bind fun data =>
      (collect ((Strided.offsets (dims.zip strides)).map fun x => readAt data (off + x))).map
        fun vals => (out, vals)
  | .catn inputs out outer inner cs =>
    -- the kernel takes eight inputs
    if 8 < inputs.length then none
    else
      (collect (inputs.map (readTensor consts σ))).bind fun datas =>
        (collect ((List.range outer).flatMap fun o => (datas.zip cs).flatMap fun dc =>
          (List.range (dc.2 * inner)).map fun j => dc.1[o * (dc.2 * inner) + j]?)).map
          fun vals => (out, vals)
  | .gather src index out n =>
    (readTensor consts σ src).bind fun data =>
      match consts.get? index with
      | some (.ints idx) =>
        (collect ((List.range n).map fun i => idx[i]?.bind fun x =>
          if 0 ≤ x then readAt data x else some .zero)).map fun vals => (out, vals)
      | _ => none

/-- Ops, one after the other. -/
def evalOps (consts : PyDict String ConstData) : List LoweredOp → Store → Option Store
  | [], σ => some σ
  | op :: ops, σ =>
    match evalOp consts σ op with
    | none => none
    | some (out, vals) => evalOps consts ops (Function.update σ out (some vals))

/-! ## What a movement places -/

open PyList List PyDict

/-! ### Movements do not look at elements -/

section
variable {α β : Type} {fillOf : TorchFloat → α} {f : Movement} {y : NdArray α}
  {args : List (NdArray α)}

theorem Movement.run_eq_some_iff :
    f.run fillOf args = some y ↔ f.shape (args.map NdArray.shape) = some y.shape ∧
      y.data = (f.place (args.map NdArray.shape)).map (readPlaced fillOf args) := by
  unfold Movement.run
  split
  · rename_i h
    rw [h]
    simp
  · rename_i out h
    constructor
    · intro heq
      obtain rfl := Option.some.inj heq
      exact ⟨h, rfl⟩
    · rintro ⟨hshape, hdata⟩
      exact congrArg some (NdArray.ext (Option.some.inj (h.symm.trans hshape)) hdata.symm)

theorem readPlaced_map (g : α → β) (fillOf : TorchFloat → α) (args : List (NdArray α)) (p : Placed) :
    readPlaced (g ∘ fillOf) (args.map (NdArray.map g)) p =
      g (readPlaced fillOf args p) := by
  cases p with
  | fill v => rfl
  | elem arg k =>
    show ((((args.map (NdArray.map g))[arg]?).bind fun a => a.data[k]?).getD _) =
      g (((args[arg]?).bind fun a => a.data[k]?).getD _)
    rw [getElem?_map]
    cases args[arg]? with
    | none => rfl
    | some a =>
      show ((a.map g).data[k]?).getD _ = g ((a.data[k]?).getD _)
      rw [NdArray.data_map, getElem?_map]
      cases a.data[k]? with
      | none => rfl
      | some x => rfl

/-- A movement of renamed elements is the renamed movement. -/
theorem Movement.run_map (f : Movement) (g : α → β) (fillOf : TorchFloat → α)
    (args : List (NdArray α)) :
    f.run (g ∘ fillOf) (args.map (NdArray.map g)) = (f.run fillOf args).map (NdArray.map g) := by
  have hshapes : (args.map (NdArray.map g)).map NdArray.shape = args.map NdArray.shape := by
    rw [map_map]
    rfl
  cases hrun : f.run fillOf args with
  | some y =>
    obtain ⟨hshape, hdata⟩ := run_eq_some_iff.mp hrun
    rw [Option.map_some, run_eq_some_iff, hshapes]
    refine ⟨hshape, ?_⟩
    rw [NdArray.data_map, hdata, map_map]
    exact map_congr_left fun p _ => (readPlaced_map g fillOf args p).symm
  | none =>
    rw [Option.map_none, Option.eq_none_iff_forall_ne_some]
    intro y hy
    obtain ⟨hshape, -⟩ := run_eq_some_iff.mp hy
    rw [hshapes] at hshape
    unfold Movement.run at hrun
    split at hrun
    · rename_i h
      exact nomatch h.symm.trans hshape
    · cases hrun

/-- What is placed is an element of an argument, or a fill value. -/
theorem exists_of_mem_run (h : f.run fillOf args = some y) {x : α} (hx : x ∈ y.data) :
    (∃ a ∈ args, x ∈ a.data) ∨ ∃ v, .fill v ∈ f.place (args.map NdArray.shape) ∧ x = fillOf v := by
  obtain ⟨hshape, hdata⟩ := Movement.run_eq_some_iff.mp h
  rw [hdata] at hx
  obtain ⟨p, hp, rfl⟩ := mem_map.mp hx
  cases p with
  | fill v => exact .inr ⟨v, hp, rfl⟩
  | elem arg k =>
    obtain ⟨s, hs, hk⟩ := f.inside _ _ hshape arg k hp
    rw [getElem?_map, Option.map_eq_some_iff] at hs
    obtain ⟨a, ha, rfl⟩ := hs
    rw [← a.size_eq] at hk
    refine .inl ⟨a, mem_of_getElem? ha, ?_⟩
    show ((args[arg]?).bind fun a => a.data[k]?).getD _ ∈ _
    rw [ha, Option.bind_some, getElem?_eq_getElem hk]
    exact getElem_mem hk

theorem collect_map (g : α → β) (l : List (Option α)) :
    collect (l.map (Option.map g)) = (collect l).map (List.map g) := by
  induction l with
  | nil => rfl
  | cons x l ih =>
    cases x with
    | none => rfl
    | some x =>
      show (collect (l.map (Option.map g))).map (g x :: ·) = ((collect l).map (x :: ·)).map _
      rw [ih, Option.map_map, Option.map_map]
      rfl

/-- All elements are there, and are those of the list. -/
theorem collect_eq_some_iff {l : List (Option α)} {r : List α} :
    collect l = some r ↔ l = r.map some := by
  induction l generalizing r with
  | nil => cases r <;> simp [collect]
  | cons x l ih =>
    cases x with
    | none => cases r <;> simp [collect]
    | some x =>
      rw [collect, Option.map_eq_some_iff]
      constructor
      · rintro ⟨r', hr', rfl⟩
        rw [ih.mp hr']
        rfl
      · intro h
        cases r with
        | nil => cases h
        | cons y r =>
          rw [map_cons, List.cons.injEq, Option.some.injEq] at h
          exact ⟨r, ih.mpr h.2, by rw [h.1]⟩

end

/-! ### Results of nodes -/

section
variable {α β : Type} (tensors : PyDict String (List ℕ))

/-- An argument, for elements of any kind. -/
def MoveArg.eval (leaf : String → ℕ → α) (fillOf : TorchFloat → α) (uninit : α) :
    MoveArg → Option (NdArray α)
  | .tensor name => (tensors.get? name).map fun shape =>
    { shape := shape
      data := (List.range shape.prod).map (leaf name)
      size_eq := by rw [length_map, length_range] }
  | .shapeOnly shape => some (uninitialised shape uninit)
  | .item f arg => (arg.eval leaf fillOf uninit).bind fun x => f.run fillOf [x]

/-- A scalar as an array. -/
def scalarArray (x : α) : NdArray α where
  shape := []
  data := [x]
  size_eq := rfl

/-- The result of a call, for elements of any kind. -/
def MoveCall.eval (leaf : String → ℕ → α) (fillOf scalarOf : TorchFloat → α) (uninit : α) :
    MoveCall → Option (NdArray α)
  | .call f args =>
    (collect (args.map (MoveArg.eval tensors leaf fillOf uninit))).bind (f.run fillOf)
  | .setScalar f arg v => (arg.eval tensors leaf fillOf uninit).bind fun x =>
    f.run fillOf [x, scalarArray (scalarOf v)]

theorem MoveArg.eval_map (g : α → β) (leaf : String → ℕ → α) (fillOf : TorchFloat → α) (uninit : α)
    (arg : MoveArg) :
    arg.eval tensors (fun t k => g (leaf t k)) (g ∘ fillOf) (g uninit) =
      (arg.eval tensors leaf fillOf uninit).map (NdArray.map g) := by
  induction arg with
  | tensor name =>
    unfold MoveArg.eval
    rw [Option.map_map]
    congr 1
    funext shape
    apply NdArray.ext
    · rfl
    · exact (map_map ..).symm
  | shapeOnly shape =>
    show some _ = some _
    congr 1
    apply NdArray.ext
    · rfl
    · exact (map_replicate ..).symm
  | item f arg ih =>
    unfold MoveArg.eval
    rw [ih]
    cases arg.eval tensors leaf fillOf uninit with
    | none => rfl
    | some x => exact f.run_map g fillOf [x]

theorem MoveCall.eval_map (g : α → β) (leaf : String → ℕ → α) (fillOf scalarOf : TorchFloat → α)
    (uninit : α) (c : MoveCall) :
    c.eval tensors (fun t k => g (leaf t k)) (g ∘ fillOf) (g ∘ scalarOf) (g uninit) =
      (c.eval tensors leaf fillOf scalarOf uninit).map (NdArray.map g) := by
  cases c with
  | call f args =>
    dsimp only [MoveCall.eval]
    have hargs : args.map (MoveArg.eval tensors (fun t k => g (leaf t k)) (g ∘ fillOf) (g uninit)) =
        (args.map (MoveArg.eval tensors leaf fillOf uninit)).map (Option.map (NdArray.map g)) := by
      rw [map_map]
      exact map_congr_left fun arg _ => arg.eval_map tensors g leaf fillOf uninit
    rw [hargs, collect_map]
    cases collect (args.map (MoveArg.eval tensors leaf fillOf uninit)) with
    | none => rfl
    | some xs => exact f.run_map g fillOf xs
  | setScalar f arg v =>
    dsimp only [MoveCall.eval]
    rw [arg.eval_map tensors g leaf fillOf uninit]
    cases arg.eval tensors leaf fillOf uninit with
    | none => rfl
    | some x => exact f.run_map g fillOf [x, scalarArray (scalarOf v)]

end

/-- Where an element of a result comes from. -/
inductive Source where
  | elem (t : String) (k : ℕ)
  | fill (v : TorchFloat)
  | scalar (v : TorchFloat)
  /-- An argument that only supplies a shape. -/
  | uninit
deriving DecidableEq

/-- The value of an element. -/
def Source.value (vals : String → ℕ → TorchFloat) : Source → TorchFloat
  | .elem t k => vals t k
  | .fill v => v
  | .scalar v => v
  | .uninit => .zero

/-- Where the elements of the result come from. -/
def MoveNode.sources (tensors : PyDict String (List ℕ)) (node : MoveNode) :
    Option (NdArray Source) :=
  node.call.eval tensors .elem .fill .scalar .uninit

/-- The result, for the values of the tensors. -/
def MoveNode.value (tensors : PyDict String (List ℕ)) (vals : String → ℕ → TorchFloat)
    (node : MoveNode) : Option (NdArray TorchFloat) :=
  node.call.eval tensors vals id id .zero

/-- The result has the values of the sources. -/
theorem MoveNode.value_eq (tensors : PyDict String (List ℕ)) (vals : String → ℕ → TorchFloat)
    (node : MoveNode) :
    node.value tensors vals = (node.sources tensors).map (NdArray.map (Source.value vals)) :=
  node.call.eval_map tensors (Source.value vals) .elem .fill .scalar .uninit

/-! ### The numbers of a probe -/

/-- The tensors of an argument. -/
def MoveArg.names : MoveArg → List String
  | .tensor name => [name]
  | .shapeOnly _ => []
  | .item _ arg => arg.names

/-- The number of elements of a tensor. -/
def sizeOf (tensors : PyDict String (List ℕ)) (t : String) : ℕ :=
  ((tensors.get? t).getD []).prod

/-- The number of elements in front of those of a tensor. -/
def start (size : String → ℕ) : List String → String → ℕ
  | [], _ => 0
  | n :: names, t => if n = t then 0 else size n + start size names t

variable {size : String → ℕ} {t : String} {node : MoveNode}

theorem start_append_of_mem {names : List String} (ht : t ∈ names) (more : List String) :
    start size (names ++ more) t = start size names t := by
  induction names with
  | nil => cases ht
  | cons n names ih =>
    rw [cons_append, start, start]
    by_cases hn : n = t
    · rw [if_pos hn, if_pos hn]
    · rw [if_neg hn, if_neg hn, ih ((mem_cons.mp ht).resolve_left fun h => hn h.symm)]

theorem start_append_self {names : List String} (ht : t ∉ names) :
    start size (names ++ [t]) t = (names.map size).sum := by
  induction names with
  | nil => simp [start]
  | cons n names ih =>
    rw [mem_cons, not_or] at ht
    rw [cons_append, start, if_neg (Ne.symm ht.1), ih ht.2, map_cons, sum_cons]

/-- The number of an element in a probe over the tensors; a scalar is in a constant. -/
def code (size : String → ℕ) (names : List String) (const : String) : Source → TorchFloat
  | .elem t k => .num (start size names t + k + 1 : ℕ)
  | .fill v => v
  | .scalar _ => .num (start size names const + 0 + 1 : ℕ)
  | .uninit => .zero

/-- The stand-ins of tensors, one after the other. -/
structure Roots.Spec (tensors : PyDict String (List ℕ)) (roots : Roots) (names : List String) :
    Prop where
  nodup : names.Nodup
  present : ∀ t ∈ names, (tensors.get? t).isSome
  items : roots.items = names.map fun t =>
    (t, standIn ((tensors.get? t).getD []) (start (sizeOf tensors) names t))

/-- The elements that are named are of the tensors. -/
def Named (tensors : PyDict String (List ℕ)) (names : List String) (S : NdArray Source) : Prop :=
  ∀ t k, .elem t k ∈ S.data → t ∈ names ∧ k < sizeOf tensors t

section
variable {tensors : PyDict String (List ℕ)} {S : NdArray Source} {roots roots' : Roots} {t : String}

theorem Named.mono {names names' : List String} (h : Named tensors names S)
    (hsub : ∀ t ∈ names, t ∈ names') : Named tensors names' S :=
  fun t k hmem => ⟨hsub t (h t k hmem).1, (h t k hmem).2⟩

/-- What a movement places is of the tensors of its arguments. -/
theorem Named.run {names : List String} {f : Movement} {args : List (NdArray Source)}
    {y : NdArray Source} (h : f.run .fill args = some y) (hargs : ∀ a ∈ args, Named tensors names a) :
    Named tensors names y := by
  intro t k hmem
  rcases exists_of_mem_run h hmem with ⟨a, ha, hin⟩ | ⟨v, -, heq⟩
  · exact hargs a ha t k hin
  · cases heq

/-- More tensors in a probe leave the numbers of the first ones. -/
theorem map_code_append {names : List String} (h : Named tensors names S)
    (hscalar : ∀ v, .scalar v ∉ S.data) (size : String → ℕ) (more : List String) (const : String) :
    S.map (code size (names ++ more) const) = S.map (code size names const) := by
  apply NdArray.ext
  · rfl
  · apply map_congr_left
    intro x hx
    cases x with
    | elem t k =>
      dsimp only [code]
      rw [start_append_of_mem (h t k hx).1]
    | scalar v => exact absurd hx (hscalar v)
    | fill v => rfl
    | uninit => rfl

theorem map_code_orderedUnique {xs : List String} (h : Named tensors xs S)
    (hscalar : ∀ v, .scalar v ∉ S.data) (size : String → ℕ) (ys : List String) (const : String) :
    S.map (code size (orderedUnique (xs ++ ys)) const) =
      S.map (code size (orderedUnique xs) const) := by
  rw [orderedUnique_append]
  exact map_code_append (h.mono fun t ht => mem_orderedUnique.mpr ht) hscalar _ _ _

/-- The total of the stand-ins. -/
theorem Roots.Spec.total {names : List String} (h : roots.Spec tensors names) :
    roots.total = (names.map (sizeOf tensors)).sum := by
  unfold Roots.total
  rw [h.items, map_map]
  congr 1
  apply map_congr_left
  intro t _
  show (standIn _ _).data.length = _
  rw [(standIn _ _).size_eq]
  rfl

/-- The stand-in of a tensor of the probe. -/
theorem Roots.Spec.get? {names : List String} (h : roots.Spec tensors names) (ht : t ∈ names) :
    roots.get? t =
      some (standIn ((tensors.get? t).getD []) (start (sizeOf tensors) names t)) := by
  rw [← mem_items_iff, h.items]
  exact mem_map.mpr ⟨t, ht, rfl⟩

/-- A tensor is looked up, or gets the next numbers. -/
theorem Roots.Spec.rootOf {names : List String} (h : roots.Spec tensors names) {shape : List ℕ}
    (ht : tensors.get? t = some shape) :
    (rootOf t shape roots).2.Spec tensors (orderedUnique (names ++ [t])) ∧
      (rootOf t shape roots).1 =
        standIn shape (start (sizeOf tensors) (orderedUnique (names ++ [t])) t) := by
  unfold Lowering.rootOf
  by_cases hmem : t ∈ names
  · have hnames : orderedUnique (names ++ [t]) = names := by
      rw [orderedUnique_append, orderedUnique_of_nodup h.nodup]
      simp [orderedUnique, uniqueFrom, hmem]
    rw [h.get? hmem, hnames, ht]
    exact ⟨h, rfl⟩
  · have hnone : roots.get? t = none := by
      rw [get?_eq_none_iff]
      unfold PyDict.keys
      rw [h.items, map_map]
      simpa using hmem
    have hnodup : (names ++ [t]).Nodup := by
      rw [nodup_append]
      exact ⟨h.nodup, nodup_singleton t, fun a ha b hb heq =>
        hmem (mem_singleton.mp hb ▸ heq ▸ ha)⟩
    have hstart : start (sizeOf tensors) (names ++ [t]) t = roots.total := by
      rw [start_append_self hmem, h.total]
    rw [hnone, orderedUnique_of_nodup hnodup, hstart]
    refine ⟨⟨hnodup, ?_, ?_⟩, rfl⟩
    · intro x hx
      rcases mem_append.mp hx with hold | hnew
      · exact h.present x hold
      · rw [mem_singleton.mp hnew, ht]
        rfl
    · rw [items_set_of_not_mem _ (get?_eq_none_iff.mp hnone), h.items,
        map_append, map_singleton, hstart, ht]
      congr 1
      apply map_congr_left
      intro x hx
      rw [start_append_of_mem hx]

/-- A probe of an argument has the numbers of its sources. -/
theorem probe_spec {arg : MoveArg} {names : List String} {x : NdArray TorchFloat}
    (h : roots.Spec tensors names) (hprobe : probe tensors arg roots = .ok (x, roots'))
    (const : String) :
    roots'.Spec tensors (orderedUnique (names ++ arg.names)) ∧
      ∃ S, arg.eval tensors .elem .fill .uninit = some S ∧
        Named tensors arg.names S ∧ (∀ v, .scalar v ∉ S.data) ∧
        x = S.map (code (sizeOf tensors) (orderedUnique (names ++ arg.names)) const) := by
  induction arg generalizing roots roots' x with
  | tensor name =>
    unfold probe at hprobe
    cases hshape : tensors.get? name with
    | none =>
      rw [hshape] at hprobe
      cases hprobe
    | some shape =>
      rw [hshape] at hprobe
      obtain ⟨hspec, hroot⟩ := h.rootOf hshape
      rw [Except.ok.injEq, Prod.ext_iff] at hprobe
      obtain ⟨rfl, rfl⟩ := hprobe
      refine ⟨hspec, _, by rw [MoveArg.eval, hshape]; rfl, ?_, ?_, ?_⟩
      · intro t k hmem
        obtain ⟨j, hj, heq⟩ := mem_map.mp hmem
        cases heq
        refine ⟨mem_singleton_self _, ?_⟩
        unfold sizeOf
        rw [hshape]
        exact mem_range.mp hj
      · intro v hmem
        obtain ⟨j, -, heq⟩ := mem_map.mp hmem
        cases heq
      · dsimp only
        rw [hroot]
        apply NdArray.ext
        · rfl
        · show _ = List.map _ (List.map _ _)
          rw [map_map]
          rfl
  | shapeOnly shape =>
    obtain ⟨rfl, rfl⟩ := Prod.mk.inj (Except.ok.inj hprobe)
    have hnames : orderedUnique (names ++ (MoveArg.shapeOnly shape).names) = names := by
      rw [MoveArg.names, append_nil, orderedUnique_of_nodup h.nodup]
    rw [hnames]
    have hall : ∀ y ∈ (uninitialised shape Source.uninit).data, y = .uninit := fun y hy =>
      eq_of_mem_replicate hy
    refine ⟨h, uninitialised shape .uninit, rfl, ?_, ?_, ?_⟩
    · intro t k hmem
      cases hall _ hmem
    · intro v hmem
      cases hall _ hmem
    · apply NdArray.ext
      · rfl
      · show List.replicate _ _ = List.map _ (List.replicate _ _)
        rw [map_replicate]
        rfl
  | item f arg ih =>
    unfold probe at hprobe
    cases harg : probe tensors arg roots with
    | error e =>
      rw [harg] at hprobe
      cases hprobe
    | ok xr =>
      obtain ⟨y, roots₁⟩ := xr
      rw [harg] at hprobe
      obtain ⟨hspec, S, hS, hnamed, hscalar, rfl⟩ := ih h harg
      dsimp only at hprobe
      -- the movement of the numbers is the movement of the names
      have hrun := f.run_map (code (sizeOf tensors) (orderedUnique (names ++ arg.names)) const)
        .fill [S]
      cases hSrun : f.run .fill [S] with
      | none =>
        rw [hSrun] at hrun
        have hrun' : f.run id [S.map (code (sizeOf tensors)
          (orderedUnique (names ++ arg.names)) const)] = none := hrun
        rw [hrun'] at hprobe
        cases hprobe
      | some S' =>
        rw [hSrun] at hrun
        have hrun' : f.run id [S.map (code (sizeOf tensors)
          (orderedUnique (names ++ arg.names)) const)] =
          some (S'.map (code (sizeOf tensors) (orderedUnique (names ++ arg.names)) const)) := hrun
        rw [hrun'] at hprobe
        obtain ⟨rfl, rfl⟩ := Prod.mk.inj (Except.ok.inj hprobe)
        refine ⟨hspec, S', ?_, ?_, fun v hmem => ?_, rfl⟩
        · rw [MoveArg.eval, hS]
          exact hSrun
        · exact Named.run hSrun fun a ha => mem_singleton.mp ha ▸ hnamed
        · rcases exists_of_mem_run hSrun hmem with ⟨a, ha, hin⟩ | ⟨w, -, heq⟩
          · exact hscalar v (mem_singleton.mp ha ▸ hin)
          · cases heq

/-- A probe of several arguments has the numbers of their sources. -/
theorem probeAll_spec {args : List MoveArg} {names : List String} {xs : List (NdArray TorchFloat)}
    (h : roots.Spec tensors names) (hprobe : probeAll tensors args roots = .ok (xs, roots'))
    (const : String) :
    roots'.Spec tensors (orderedUnique (names ++ args.flatMap MoveArg.names)) ∧
      ∃ Ss, collect (args.map (MoveArg.eval tensors .elem .fill .uninit)) = some Ss ∧
        (∀ S ∈ Ss, Named tensors (args.flatMap MoveArg.names) S ∧ ∀ v, .scalar v ∉ S.data) ∧
        xs = Ss.map (NdArray.map (code (sizeOf tensors)
          (orderedUnique (names ++ args.flatMap MoveArg.names)) const)) := by
  induction args generalizing roots names xs with
  | nil =>
    obtain ⟨rfl, rfl⟩ := Prod.mk.inj (Except.ok.inj hprobe)
    rw [flatMap_nil, append_nil, orderedUnique_of_nodup h.nodup]
    exact ⟨h, [], rfl, forall_mem_nil _, rfl⟩
  | cons arg args ih =>
    unfold probeAll at hprobe
    cases harg : probe tensors arg roots with
    | error e =>
      rw [harg] at hprobe
      cases hprobe
    | ok xr =>
      obtain ⟨x, roots₁⟩ := xr
      rw [harg] at hprobe
      dsimp only at hprobe
      cases hrest : probeAll tensors args roots₁ with
      | error e =>
        rw [hrest] at hprobe
        cases hprobe
      | ok yr =>
        obtain ⟨ys, roots₂⟩ := yr
        rw [hrest] at hprobe
        obtain ⟨rfl, rfl⟩ := Prod.mk.inj (Except.ok.inj hprobe)
        obtain ⟨hspec₁, S, hS, hnamed, hscalar, rfl⟩ := probe_spec h harg const
        obtain ⟨hspec₂, Ss, hSs, hall, rfl⟩ := ih hspec₁ hrest
        have hnames : orderedUnique (orderedUnique (names ++ arg.names) ++
            args.flatMap MoveArg.names) =
            orderedUnique (names ++ (arg :: args).flatMap MoveArg.names) := by
          rw [orderedUnique_append_left, flatMap_cons, append_assoc]
        rw [hnames] at hspec₂
        refine ⟨hspec₂, S :: Ss, ?_, ?_, ?_⟩
        · rw [map_cons, hS, collect, hSs]
          rfl
        · rw [forall_mem_cons]
          refine ⟨⟨hnamed.mono fun t ht => ?_, hscalar⟩, fun T hT => ⟨(hall T hT).1.mono ?_,
            (hall T hT).2⟩⟩
          · exact mem_append_left _ ht
          · exact fun t ht => mem_append_right _ ht
        · rw [map_cons, hnames]
          congr 1
          -- the numbers of the first argument stay
          rw [← hnames, orderedUnique_append_left]
          refine (map_code_orderedUnique (hnamed.mono fun t ht => ?_) hscalar _ _ _).symm
          exact mem_append_right _ ht

end

/-! ### Nodes -/

/-- The tensors of a call. -/
def MoveCall.argNames : MoveCall → List String
  | .call _ args => args.flatMap MoveArg.names
  | .setScalar _ arg _ => arg.names

/-- The tensors that the probe of a node goes over, in order. -/
def MoveNode.names (node : MoveNode) : List String :=
  match node.call with
  | .call _ args => orderedUnique (args.flatMap MoveArg.names)
  | .setScalar _ arg _ => orderedUnique (arg.names ++ [scalarName node.name])

theorem MoveNode.mem_names (h : t ∈ node.call.argNames) :
    t ∈ node.names := by
  unfold MoveNode.names
  cases hcall : node.call with
  | call f args =>
    rw [hcall] at h
    exact mem_orderedUnique.mpr h
  | setScalar f arg v =>
    rw [hcall] at h
    exact mem_orderedUnique.mpr (mem_append_left _ h)

/-- An argument reads its tensors only. -/
theorem MoveArg.eval_congr {α : Type} (tensors tensors' : PyDict String (List ℕ)) {arg : MoveArg}
    (h : ∀ t ∈ arg.names, tensors.get? t = tensors'.get? t) (leaf : String → ℕ → α)
    (fillOf : TorchFloat → α) (uninit : α) :
    arg.eval tensors leaf fillOf uninit = arg.eval tensors' leaf fillOf uninit := by
  induction arg with
  | tensor name => rw [MoveArg.eval, MoveArg.eval, h name (mem_singleton_self _)]
  | shapeOnly shape => rfl
  | item f arg ih => rw [MoveArg.eval, MoveArg.eval, ih h]

/-- The probe of a node has the numbers of its sources. -/
theorem exists_of_applyNode {st st' : LowerState} {val : NdArray TorchFloat} {roots : Roots}
    (hnames : ∀ t ∈ node.call.argNames, t ≠ scalarName node.name)
    (h : applyNode st node = .ok (val, roots, st')) :
    ∃ S, node.sources st.tensors = some S ∧ roots.Spec st'.tensors node.names ∧
      Named st'.tensors node.call.argNames S ∧
      (∀ v, .scalar v ∈ S.data → ∃ f arg, node.call = .setScalar f arg v) ∧
      val = S.map (code (sizeOf st'.tensors) node.names (scalarName node.name)) := by
  unfold applyNode at h
  unfold MoveNode.sources MoveNode.names
  have hempty : Roots.Spec st.tensors PyDict.empty [] := ⟨nodup_nil, forall_mem_nil _, rfl⟩
  cases hcall : node.call with
  | call f args =>
    rw [hcall] at h
    dsimp only at h
    cases hprobe : probeAll st.tensors args PyDict.empty with
    | error e =>
      rw [hprobe] at h
      cases h
    | ok xr =>
      obtain ⟨xs, roots₁⟩ := xr
      rw [hprobe] at h
      dsimp only at h
      obtain ⟨hspec, Ss, hSs, hall, rfl⟩ := probeAll_spec hempty hprobe (scalarName node.name)
      rw [nil_append] at hspec h
      have hrun := f.run_map (code (sizeOf st.tensors) (orderedUnique
        (args.flatMap MoveArg.names)) (scalarName node.name)) .fill Ss
      cases hSrun : f.run .fill Ss with
      | none =>
        rw [hSrun] at hrun
        rw [show f.run id _ = none from hrun] at h
        cases h
      | some S =>
        rw [hSrun] at hrun
        rw [show f.run id _ = some _ from hrun] at h
        obtain ⟨rfl, heq⟩ := Prod.mk.inj (Except.ok.inj h)
        obtain ⟨rfl, rfl⟩ := Prod.mk.inj heq
        refine ⟨S, ?_, hspec, ?_, fun v hmem => ?_, rfl⟩
        · dsimp only [MoveCall.eval]
          rw [hSs]
          exact hSrun
        · exact Named.run hSrun fun a ha => (hall a ha).1
        · rcases exists_of_mem_run hSrun hmem with ⟨a, ha, hin⟩ | ⟨w, -, heq⟩
          · exact absurd hin ((hall a ha).2 v)
          · cases heq
  | setScalar f arg v =>
    rw [hcall] at h hnames
    dsimp only at h
    have hempty' : Roots.Spec (st.addConst (scalarName node.name) [1] (.floats [v])).tensors
        PyDict.empty [] := ⟨nodup_nil, forall_mem_nil _, rfl⟩
    cases hprobe : probe (st.addConst (scalarName node.name) [1] (.floats [v])).tensors arg
        PyDict.empty with
    | error e =>
      rw [hprobe] at h
      cases h
    | ok xr =>
      obtain ⟨x, roots₁⟩ := xr
      rw [hprobe] at h
      dsimp only at h
      obtain ⟨hspec₁, S₁, hS₁, hnamed, hscalar, rfl⟩ :=
        probe_spec hempty' hprobe (scalarName node.name)
      rw [nil_append] at hspec₁
      have hconst : (st.addConst (scalarName node.name) [1] (.floats [v])).tensors.get?
          (scalarName node.name) = some [1] := get?_set_self _ _ _
      obtain ⟨hspec, hroot⟩ := hspec₁.rootOf hconst
      rw [orderedUnique_append_left] at hspec hroot
      rw [hroot] at h
      generalize hst : st.addConst (scalarName node.name) [1] (.floats [v]) = stc at *
      set c := code (sizeOf stc.tensors) (orderedUnique (arg.names ++ [scalarName node.name]))
        (scalarName node.name) with hc
      -- the numbers of the argument stay, and the constant has the last one
      have hx : S₁.map (code (sizeOf stc.tensors) (orderedUnique ([] ++ arg.names))
          (scalarName node.name)) = S₁.map c := by
        exact (map_code_orderedUnique hnamed hscalar _ _ _).symm
      have hfirst : firstElement (standIn [1] (start (sizeOf stc.tensors)
          (orderedUnique (arg.names ++ [scalarName node.name])) (scalarName node.name))) =
          (scalarArray (Source.scalar v)).map c := rfl
      rw [hx, hfirst] at h
      have hrun : f.run id [S₁.map c, (scalarArray (.scalar v)).map c] =
          (f.run .fill [S₁, scalarArray (.scalar v)]).map (NdArray.map c) :=
        f.run_map c .fill [S₁, scalarArray (.scalar v)]
      rw [hrun] at h
      cases hSrun : f.run .fill [S₁, scalarArray (.scalar v)] with
      | none =>
        rw [hSrun] at h
        cases h
      | some S =>
        rw [hSrun] at h
        obtain ⟨rfl, heq⟩ := Prod.mk.inj (Except.ok.inj h)
        obtain ⟨rfl, rfl⟩ := Prod.mk.inj heq
        refine ⟨S, ?_, hspec, ?_, fun w hmem => ?_, rfl⟩
        · dsimp only [MoveCall.eval]
          rw [MoveArg.eval_congr st.tensors stc.tensors, hS₁]
          · exact hSrun
          · intro t ht
            rw [← hst]
            exact (get?_set_of_ne _ _ (hnames t ht)).symm
        · refine Named.run hSrun fun a ha => ?_
          rcases mem_pair.mp ha with rfl | rfl
          · exact hnamed
          · intro t k hmem
            cases mem_singleton.mp hmem
        · rcases exists_of_mem_run hSrun hmem with ⟨a, ha, hin⟩ | ⟨u, -, heq⟩
          · rcases mem_pair.mp ha with rfl | rfl
            · exact absurd hin (hscalar w)
            · cases mem_singleton.mp hin
              exact ⟨f, arg, rfl⟩
          · cases heq

end ModelBlaster.Lowering

import ModelBlaster.KernelFusion.Chain
import ModelBlaster.Rewrite.GraphEdit

/-!
# Islands of single precision

`precision_policy.apply` takes the graph of a half precision model, the same graph in single
precision and the largest magnitudes of its tensors. The ops around a tensor that half precision
may not hold become islands: they run in single precision, and casts are put where an op reads a
tensor that is stored in the other one.

## Main definitions

* `PolicyGraph`: a graph, as far as the policy sees it;
* `inIsland`, `islandTensors`: the ops that change their kind, and the tensors that they store;
* `readAs`, `rewriteOp`: the casts of an op;
* `flag`: the checks of the policy;
* `apply`: the policy;
* `PolicyGraph.Ordered`, `Typed`: graphs whose ops are ordered, and fit the dtypes of the tensors;
* `ViewOf`: the step from a tensor to a view of it;
* `IslandTensor`: the tensors that the islands store.

## Main results

* `mem_islandTensors_iff`: the pass finds all of them, and no others.
-/

namespace ModelBlaster.PrecisionPolicy

open KernelFusion

/-! ### Graphs -/

/-- The fields of an op that the policy does not look into: those of an op of the graph, or those of
a cast of so many elements. -/
inductive OtherFields (α : Type) where
  | given (fields : α)
  | cast (n : ℕ)
deriving DecidableEq

/-- An op. -/
structure PolicyOp (α : Type) where
  name : String
  op : String
  inputs : List String
  outputs : List String
  rest : OtherFields α
deriving DecidableEq

/-- An entry of `tensors`. -/
structure PolicyTensor (α : Type) where
  shape : List ℕ
  dtype : Option String
  /-- `const`, where it names an array. -/
  constKey : Option String
  quant : Option α
deriving DecidableEq

/-- A graph. -/
structure PolicyGraph (α : Type) where
  ops : List (PolicyOp α)
  tensors : PyDict String (PolicyTensor α)
  /-- The tensors of `input`. -/
  inputs : List String
  /-- The tensors of `output`. -/
  outputs : List String

/-- An array, with the kind of its elements. -/
structure NpArray (ν : Type) where
  /-- `dtype.kind in "iub"` -/
  isInt : Bool
  values : List ν
deriving DecidableEq

/-- The arrays of `io.npz`. -/
structure PolicyIo (ν : Type) where
  input : NpArray ν
  output : NpArray ν

/-- A cast that is put in. -/
structure PolicyCast where
  tensor : String
  /-- `to` -/
  toDtype : String
  op : String
  n : ℕ
deriving DecidableEq, Repr

/-- Why there is no result: the texts of `refused` by what they name, or a missing key. -/
inductive PolicyFailure where
  | structures
  | noneAbove (limit : ℚ)
  | noKind (op kind : String)
  | noGolden
  | keyError
deriving DecidableEq

/-- What `apply` reports. -/
structure PolicyReport where
  limit : ℚ
  flagged : List String
  /-- The names of the ops of the islands, with their kinds. -/
  fp32Ops : List (String × String)
  fp32Consts : List String
  casts : List PolicyCast
  fp32Outputs : List String
  nOpsFp16 : ℕ
  maxAbsFp32 : ℚ

/-- The arguments of `apply`, with what they are compared with: the magnitudes that the walk finds,
and the kinds that have kernels. -/
structure PolicyInput (α ν : Type) where
  g16 : PolicyGraph α
  w16 : PyDict String (NpArray ν)
  io16 : PolicyIo ν
  g32 : PolicyGraph α
  w32 : PyDict String (NpArray ν)
  golden32 : Option (NpArray ν)
  limit : ℚ
  /-- The largest finite magnitude of a tensor, and the number of its elements that are not
  finite. -/
  stats : PyDict String (ℚ × ℕ)
  /-- `KERNEL_SPECS` -/
  kernelSpecs : String → Bool
  /-- The rounding of an element to single precision. -/
  toFloat32 : ν → ν

/-- What `apply` returns. -/
structure PolicyResult (α ν : Type) where
  graph : PolicyGraph α
  weights : PyDict String (NpArray ν)
  io : PolicyIo ν
  report : PolicyReport

variable {α ν : Type}

/-! ### Islands -/

/-- `ALIAS_OPS` -/
def aliasOps : List String := ["view", "chunk2_c1"]

/-- Whether an op makes views only. -/
def PolicyOp.isAlias (o : PolicyOp α) : Bool := o.op ∈ aliasOps

/-- `_strip` -/
def strip (kind : String) : String :=
  if "_f16".toList.isSuffixOf kind.toList then
    String.ofList (kind.toList.take (kind.toList.length - 4))
  else kind

/-- `_structure` -/
def structureOf (g : PolicyGraph α) : List (String × String × List String × List String) :=
  g.ops.map fun o => (o.name, strip o.op, o.inputs, o.outputs)

/-- The tensors above the limit. -/
def flaggedTensors (stats : PyDict String (ℚ × ℕ)) (limit : ℚ) : List String :=
  (stats.items.filter fun item => limit < item.2.1).map Prod.fst

/-- The array of a tensor, if it is a constant. -/
def constOf (tensors : PyDict String (PolicyTensor α)) (t : String) : Option String :=
  (tensors.get? t).bind PolicyTensor.constKey

section
variable (flagged : List String)

/-- Whether an op is one of `fp32_ops`. -/
def inIsland (o : PolicyOp α) : Bool :=
  !o.isAlias && (o.inputs ++ o.outputs).any fun t => t ∈ flagged

/-- The tensors that are stored in single precision after an op, from those before it. -/
def growIslands (s32 : List String) (o : PolicyOp α) : List String :=
  if inIsland flagged o || (o.isAlias && o.inputs.any fun t => t ∈ s32) then s32 ++ o.outputs
  else s32

/-- `s32` -/
def islandTensors (g : PolicyGraph α) : List String :=
  g.ops.foldl (growIslands flagged) (flagged.filter fun t => (constOf g.tensors t).isSome)

/-- The precision of an op. -/
def needOf (o : PolicyOp α) : String := if inIsland flagged o then "f32" else "f16"

end

/-! ### Casts -/

/-- The name of a tensor in the other precision. -/
def castName (t need : String) : String := t ++ "__as_" ++ need

/-- The kind of a cast. -/
def castKind (need : String) : String :=
  if need = "f32" then "cast_f16_to_f32" else "cast_f32_to_f16"

/-- The op of a cast. -/
def PolicyCast.toOp (c : PolicyCast) : PolicyOp α where
  name := c.op
  op := castKind c.toDtype
  inputs := [c.tensor]
  outputs := [castName c.tensor c.toDtype]
  rest := .cast c.n

/-- The tensor that a cast writes. -/
def PolicyCast.out (c : PolicyCast) : String := castName c.tensor c.toDtype

/-- The state of the loop over the ops. -/
structure CastState (α : Type) where
  tens : PyDict String (PolicyTensor α)
  newOps : List (PolicyOp α)
  casts : List PolicyCast
  made : PyDict (String × String) String

section
variable (w16 : PyDict String (NpArray ν)) (s32 : List String)

/-- `is_float` -/
def isFloat (tens : PyDict String (PolicyTensor α)) (t : String) : Except PolicyFailure Bool :=
  match tens.get? t with
  | none => .ok false
  | some info =>
    if info.dtype = some "f16" ∨ info.dtype = some "f32" then
      match info.constKey with
      | none => .ok true
      | some key =>
        match w16.get? key with
        | none => .error .keyError
        | some array => .ok !array.isInt
    else .ok false

/-- The precision in which a tensor is stored, if it is a float one. -/
def storedAs (t : String) : String := if t ∈ s32 then "f32" else "f16"

/-- A cast, in front of the op that reads its tensor first. -/
def CastState.addCast (s : CastState α) (t need : String) (info : PolicyTensor α) : CastState α :=
  let c : PolicyCast := ⟨t, need, castName t need ++ "__cast", info.shape.prod⟩
  { tens := s.tens.set c.out ⟨info.shape, some need, none, none⟩
    newOps := s.newOps ++ [c.toOp]
    casts := s.casts ++ [c]
    made := s.made.set (t, need) c.out }

/-- What an op of a precision reads in place of a tensor. -/
def readAs (need : String) (s : CastState α) (t : String) :
    Except PolicyFailure (CastState α × String) := do
  let float ← isFloat w16 s.tens t
  if !float || storedAs s32 t = need then return (s, t)
  match s.made.get? (t, need) with
  | some ct => return (s, ct)
  | none =>
    match s.tens.get? t with
    | none => throw .keyError
    | some info => return (s.addCast t need info, castName t need)

/-- The loop over the inputs of an op. -/
def readStep (need : String) (acc : CastState α × List String) (t : String) :
    Except PolicyFailure (CastState α × List String) := do
  let (s, ct) ← readAs w16 s32 need acc.1 t
  return (s, acc.2 ++ [ct])

/-- The loop over the ops. -/
def rewriteOp (flagged : List String) (s : CastState α) (o : PolicyOp α) :
    Except PolicyFailure (CastState α) :=
  if o.isAlias then .ok { s with newOps := s.newOps ++ [o] }
  else do
    let (s, ins) ← o.inputs.foldlM (readStep w16 s32 (needOf flagged o)) (s, [])
    let kind := if inIsland flagged o then strip o.op else o.op
    return { s with newOps := s.newOps ++ [{ o with op := kind, inputs := ins }] }

end

/-! ### The policy -/

/-- The single precision tensors have their dtype set. -/
def retype (s32 : List String) (tens : PyDict String (PolicyTensor α)) :
    PyDict String (PolicyTensor α) :=
  tens.mapItems fun t info => if t ∈ s32 then { info with dtype := some "f32" } else info

/-- `sorted` of a set. -/
def sortedSet (l : List String) : List String := l.dedup.insertionSort (· ≤ ·)

/-- The constants among tensors, with the keys of their arrays. -/
def constsAmong (tens : PyDict String (PolicyTensor α)) (l : List String) :
    List (String × String) :=
  l.filterMap fun t => (constOf tens t).map fun key => (t, key)

/-- The names that `unique_names` gives the ops. -/
def uniqueOpNames (ops : List (PolicyOp α)) : List String :=
  (GraphEdit.renameFrom (fun _ => 0) (ops.map PolicyOp.name) (ops.map fun o =>
    (⟨⟨o.name, some o.inputs, some o.outputs, none, ()⟩, none⟩ :
      GraphEdit.EditOp Unit Unit))).map fun o => o.name

/-- The checks in front of the rewrite, and the tensors above the limit. -/
def flag (p : PolicyInput α ν) : Except PolicyFailure (List String) :=
  if structureOf p.g16 ≠ structureOf p.g32 ∨
      ¬(p.g16.tensors.keys ⊆ p.g32.tensors.keys ∧ p.g32.tensors.keys ⊆ p.g16.tensors.keys) then
    .error .structures
  else
    let flagged := flaggedTensors p.stats p.limit
    if flagged = [] then .error (.noneAbove p.limit)
    else
      match (p.g16.ops.filter (inIsland flagged)).find? fun o => !p.kernelSpecs (strip o.op) with
      | some o => .error (.noKind o.name (strip o.op))
      | none => .ok flagged

/-- `np.asarray(array, dtype=np.float32)` -/
def asFloat32 (toFloat32 : ν → ν) (array : NpArray ν) : NpArray ν :=
  ⟨false, array.values.map toFloat32⟩

/-- The arrays, with those of the constants in single precision. -/
def islandWeights (p : PolicyInput α ν) (consts : List (String × String)) :
    Except PolicyFailure (PyDict String (NpArray ν)) :=
  consts.foldlM (fun w c =>
    match p.w32.get? c.2 with
    | none => .error .keyError
    | some array => .ok (w.set c.2 (asFloat32 p.toFloat32 array))) p.w16

/-- The golden output, for the outputs in single precision. -/
def islandOutput (p : PolicyInput α ν) (out32 : List String) :
    Except PolicyFailure (NpArray ν) :=
  if out32 = [] then .ok p.io16.output
  else
    match p.golden32 with
    | none => .error .noGolden
    | some golden =>
      if golden.values.length ≠ p.io16.output.values.length then .error .noGolden
      else .ok (asFloat32 p.toFloat32 golden)

/-- `max_abs_fp32` -/
def maxAbove (stats : PyDict String (ℚ × ℕ)) (limit : ℚ) : ℚ :=
  (stats.items.filter fun item => limit < item.2.1).foldl (fun best item => max best item.2.1) limit

/-- `fp32_ops`, as they are reported. -/
def reportedOps (flagged : List String) (ops : List (PolicyOp α)) : List (String × String) :=
  (((uniqueOpNames ops).zip ops).filter fun item => inIsland flagged item.2).map fun item =>
    (item.1, strip item.2.op)

/-- `apply` -/
def apply (p : PolicyInput α ν) : Except PolicyFailure (PolicyResult α ν) := do
  let flagged ← flag p
  let s32 := islandTensors flagged p.g16
  let s ← p.g16.ops.foldlM (rewriteOp p.w16 s32 flagged) ⟨p.g16.tensors, [], [], PyDict.empty⟩
  let tens := retype s32 s.tens
  let consts := constsAmong tens (sortedSet s32)
  let weights ← islandWeights p consts
  let out32 := p.g16.outputs.filter fun t => t ∈ s32
  let output ← islandOutput p out32
  return {
    graph := { p.g16 with ops := s.newOps, tensors := tens }
    weights := weights
    io := { p.io16 with output := output }
    report := {
      limit := p.limit
      flagged := sortedSet flagged
      fp32Ops := reportedOps flagged p.g16.ops
      fp32Consts := consts.map Prod.fst
      casts := s.casts
      fp32Outputs := out32
      nOpsFp16 := p.g16.ops.length - p.g16.ops.countP (inIsland flagged) -
        p.g16.ops.countP PolicyOp.isAlias
      maxAbsFp32 := maxAbove p.stats p.limit } }

/-! ## What the islands store -/

open Relation List

/-! ### Order -/

/-- Every op reads tensors that are known, or that an op in front of it writes. -/
def ReadsKnown : List String → List (PolicyOp α) → Prop
  | _, [] => True
  | known, o :: rest => (∀ t ∈ o.inputs, t ∈ known) ∧ ReadsKnown (known ++ o.outputs) rest

instance decidableReadsKnown : ∀ (known : List String) (ops : List (PolicyOp α)),
    Decidable (ReadsKnown known ops)
  | _, [] => isTrue trivial
  | known, o :: rest =>
    have := decidableReadsKnown (known ++ o.outputs) rest
    inferInstanceAs (Decidable ((∀ t ∈ o.inputs, t ∈ known) ∧ _))

/-- What ops write. -/
def writesOf (ops : List (PolicyOp α)) : List String := ops.flatMap PolicyOp.outputs

variable {ops : List (PolicyOp α)} {t : String}

theorem mem_writesOf :
    t ∈ writesOf ops ↔ ∃ o ∈ ops, t ∈ o.outputs := mem_flatMap

theorem writesOf_append (ops ops' : List (PolicyOp α)) :
    writesOf (ops ++ ops') = writesOf ops ++ writesOf ops' := flatMap_append

theorem writesOf_cons (o : PolicyOp α) (ops : List (PolicyOp α)) :
    writesOf (o :: ops) = o.outputs ++ writesOf ops := flatMap_cons

variable {o : PolicyOp α}

/-- What an op reads is known in front of it. -/
theorem ReadsKnown.of_append {known : List String} {pre post : List (PolicyOp α)}
    (h : ReadsKnown known (pre ++ o :: post)) (ht : t ∈ o.inputs) :
    t ∈ known ++ writesOf pre := by
  induction pre generalizing known with
  | nil => simpa [writesOf] using h.1 t ht
  | cons o' rest ih =>
    have hrest := ih h.2
    rwa [append_assoc, ← writesOf_cons] at hrest

/-- The inputs and the constants. -/
def PolicyGraph.given (g : PolicyGraph α) : List String :=
  g.inputs ++ g.tensors.keys.filter fun t => (constOf g.tensors t).isSome

/-- A graph whose tensors have one source each, in front of the ops that read them. -/
@[mk_iff]
structure PolicyGraph.Ordered (g : PolicyGraph α) : Prop where
  known : ReadsKnown g.given g.ops
  once : (writesOf g.ops).Nodup
  apart : ∀ t ∈ writesOf g.ops, t ∉ g.given
  listed : ∀ o ∈ g.ops, ∀ t ∈ o.inputs ++ o.outputs, t ∈ g.tensors.keys
  made : ∀ t ∈ g.tensors.keys, t ∈ g.given ∨ t ∈ writesOf g.ops

instance (g : PolicyGraph α) : Decidable g.Ordered :=
  decidable_of_iff' _ (PolicyGraph.ordered_iff g)

theorem isSome_constOf_iff {tensors : PyDict String (PolicyTensor α)} :
    (constOf tensors t).isSome ↔ t ∈ tensors.keys ∧ (constOf tensors t).isSome := by
  refine ⟨fun h => ⟨?_, h⟩, And.right⟩
  rw [PyDict.mem_keys_iff]
  cases hget : tensors.get? t with
  | none => simp [constOf, hget] at h
  | some info => exact ⟨info, rfl⟩

theorem PolicyGraph.mem_given_of_const {g : PolicyGraph α} (h : (constOf g.tensors t).isSome) :
    t ∈ g.given :=
  mem_append_right _ (mem_filter.mpr (isSome_constOf_iff.mp h))

/-- A tensor has one writer. -/
theorem PolicyGraph.Ordered.eq_of_writes {g : PolicyGraph α} (hord : g.Ordered) {o' : PolicyOp α}
    (ho : o ∈ g.ops) (ho' : o' ∈ g.ops) (ht : t ∈ o.outputs) (ht' : t ∈ o'.outputs) :
    o = o' := by
  obtain ⟨pre, post, hsplit⟩ := append_of_mem ho
  have honce := hord.once
  rw [hsplit, writesOf_append, writesOf_cons, nodup_append, nodup_append] at honce
  rw [hsplit, mem_append, mem_cons] at ho'
  rcases ho' with hpre | rfl | hpost
  · exact absurd rfl (honce.2.2 t (mem_writesOf.mpr ⟨o', hpre, ht'⟩) t (mem_append_left _ ht))
  · rfl
  · exact absurd rfl (honce.2.1.2.2 t ht t (mem_writesOf.mpr ⟨o', hpost, ht'⟩))

/-! ### Dtypes -/

/-- `parse_cast` -/
def parseCast (kind : String) : Option (String × String) :=
  casts.find? fun c =>
    removeKernelPrefix kind.toList = ("cast_" ++ c.1 ++ "_to_" ++ c.2).toList

/-- `TENSOR_DTYPE` -/
def tensorDtype : StorageDtype → String
  | .fp32 => "f32"
  | .fp16 => "f16"
  | .bf16 => "bf16"

/-- The dtype of the float tensors that a kind reads. -/
def readDtype (kind : String) : String :=
  match parseCast kind with
  | some c => c.1
  | none => tensorDtype (opDtype kind)

/-- The dtype of the float tensors that a kind writes. -/
def writeDtype (kind : String) : String :=
  match parseCast kind with
  | some c => c.2
  | none => tensorDtype (opDtype kind)

/-- The dtype of a tensor. -/
def dtypeOf (tensors : PyDict String (PolicyTensor α)) (t : String) : Option String :=
  (tensors.get? t).bind PolicyTensor.dtype

/-- The dtypes of a graph fit its ops. -/
@[mk_iff]
structure Typed (float : String → Prop) (g : PolicyGraph α) : Prop where
  /-- A float input has the dtype that the kind demands. -/
  reads : ∀ o ∈ g.ops, o.isAlias = false → ∀ t ∈ o.inputs, float t →
    dtypeOf g.tensors t = some (readDtype o.op)
  /-- A float output has the dtype that the kind writes. -/
  writes : ∀ o ∈ g.ops, o.isAlias = false → ∀ t ∈ o.outputs, float t →
    dtypeOf g.tensors t = some (writeDtype o.op)
  /-- A view has the dtype of its base. -/
  views : ∀ o ∈ g.ops, o.isAlias = true → ∀ b ∈ o.inputs, ∀ t ∈ o.outputs,
    dtypeOf g.tensors t = dtypeOf g.tensors b

instance (float : String → Prop) [DecidablePred float] (g : PolicyGraph α) :
    Decidable (Typed float g) :=
  decidable_of_iff' _ (typed_iff float g)

/-! ### Islands -/

/-- The step from a tensor to a view of it. -/
def ViewOf (g : PolicyGraph α) (b t : String) : Prop :=
  ∃ o ∈ g.ops, o.isAlias = true ∧ b ∈ o.inputs ∧ t ∈ o.outputs

/-- A flagged constant, or what an op of an island writes. -/
def IslandRoot (flagged : List String) (g : PolicyGraph α) (b : String) : Prop :=
  b ∈ flagged ∧ (constOf g.tensors b).isSome ∨
    ∃ o ∈ g.ops, inIsland flagged o = true ∧ b ∈ o.outputs

/-- The tensors that the islands store. -/
def IslandTensor (flagged : List String) (g : PolicyGraph α) (t : String) : Prop :=
  ∃ b, IslandRoot flagged g b ∧ ReflTransGen (ViewOf g) b t

variable {flagged : List String} {g : PolicyGraph α}

theorem IslandTensor.step {b t : String} (h : IslandTensor flagged g b) (hview : ViewOf g b t) :
    IslandTensor flagged g t := by
  obtain ⟨root, hroot, hpath⟩ := h
  exact ⟨root, hroot, hpath.tail hview⟩

variable {s32 : List String}

theorem mem_growIslands :
    t ∈ growIslands flagged s32 o ↔ t ∈ s32 ∨ t ∈ o.outputs ∧
      (inIsland flagged o = true ∨ o.isAlias = true ∧ ∃ b ∈ o.inputs, b ∈ s32) := by
  unfold growIslands
  split
  case isTrue h =>
    have hcond : inIsland flagged o = true ∨ o.isAlias = true ∧ ∃ b ∈ o.inputs, b ∈ s32 := by
      simpa using h
    simp [hcond]
  case isFalse h =>
    have hcond : ¬(inIsland flagged o = true ∨ o.isAlias = true ∧ ∃ b ∈ o.inputs, b ∈ s32) := by
      simpa using h
    simp [hcond]

theorem mem_foldl_growIslands_of_mem (h : t ∈ s32) : t ∈ ops.foldl (growIslands flagged) s32 := by
  induction ops generalizing s32 with
  | nil => exact h
  | cons o rest ih => exact ih (mem_growIslands.mpr (.inl h))

/-- What the pass adds is written by the ops that it passes. -/
theorem mem_writesOf_of_mem_foldl (h : t ∈ ops.foldl (growIslands flagged) s32) :
    t ∈ s32 ∨ t ∈ writesOf ops := by
  induction ops generalizing s32 with
  | nil => exact .inl h
  | cons o rest ih =>
    rw [writesOf_cons, mem_append]
    rcases ih h with hmem | hrest
    · rcases mem_growIslands.mp hmem with hold | ⟨hout, -⟩
      · exact .inl hold
      · exact .inr (.inl hout)
    · exact .inr (.inr hrest)

/-- The pass adds tensors of islands only. -/
theorem islandTensor_of_mem_foldl (hops : ∀ o ∈ ops, o ∈ g.ops)
    (hs : ∀ t ∈ s32, IslandTensor flagged g t) (h : t ∈ ops.foldl (growIslands flagged) s32) :
    IslandTensor flagged g t := by
  induction ops generalizing s32 with
  | nil => exact hs t h
  | cons o rest ih =>
    have ho := hops o mem_cons_self
    refine ih (fun o' ho' => hops o' (mem_cons_of_mem o ho')) ?_ h
    intro u hu
    rcases mem_growIslands.mp hu with hold | ⟨hout, hisland | ⟨halias, b, hb, hbs⟩⟩
    · exact hs u hold
    · exact ⟨u, .inr ⟨o, ho, hisland, hout⟩, .refl⟩
    · exact (hs b hbs).step ⟨o, ho, halias, hb, hout⟩

/-- A view of a tensor in single precision is one: its base is written in front of it, so that the
pass has it when it comes to the view. -/
theorem mem_islandTensors_of_viewOf (hord : g.Ordered) {b : String}
    (hb : b ∈ islandTensors flagged g) (hview : ViewOf g b t) : t ∈ islandTensors flagged g := by
  obtain ⟨o, ho, halias, hread, hwrite⟩ := hview
  obtain ⟨pre, post, hsplit⟩ := append_of_mem ho
  unfold islandTensors at hb ⊢
  rw [hsplit, foldl_append] at hb ⊢
  rw [foldl_cons]
  apply mem_foldl_growIslands_of_mem
  rw [mem_growIslands]
  refine .inr ⟨hwrite, .inr ⟨halias, b, hread, ?_⟩⟩
  rcases mem_writesOf_of_mem_foldl hb with hdone | hlater
  · exact hdone
  -- a writer behind the op contradicts the order
  have hknown := (hsplit ▸ hord.known).of_append hread
  have hall : b ∈ writesOf g.ops := by
    rw [hsplit, writesOf_append]
    exact mem_append_right _ hlater
  rcases mem_append.mp hknown with hgiven | hpre
  · exact absurd hgiven (hord.apart b hall)
  · have honce := hord.once
    rw [hsplit, writesOf_append, nodup_append] at honce
    exact absurd rfl (honce.2.2 b hpre b hlater)

/-- The pass finds the tensors that the islands store, and no others. -/
theorem mem_islandTensors_iff (hord : g.Ordered) :
    t ∈ islandTensors flagged g ↔ IslandTensor flagged g t := by
  constructor
  · apply islandTensor_of_mem_foldl fun _ h => h
    intro u hu
    rw [mem_filter] at hu
    exact ⟨u, .inl hu, .refl⟩
  · rintro ⟨b, hroot, hpath⟩
    have hbase : b ∈ islandTensors flagged g := by
      rcases hroot with hconst | ⟨o, ho, hisland, hout⟩
      · exact mem_foldl_growIslands_of_mem (mem_filter.mpr hconst)
      · obtain ⟨pre, post, hsplit⟩ := append_of_mem ho
        unfold islandTensors
        rw [hsplit, foldl_append, foldl_cons]
        exact mem_foldl_growIslands_of_mem (mem_growIslands.mpr (.inr ⟨hout, .inl hisland⟩))
    induction hpath with
    | refl => exact hbase
    | tail _ hview ih => exact mem_islandTensors_of_viewOf hord ih hview

/-- What is stored in single precision is listed. -/
theorem mem_keys_of_mem_islandTensors (hord : g.Ordered) (h : t ∈ islandTensors flagged g) :
    t ∈ g.tensors.keys := by
  rcases mem_writesOf_of_mem_foldl h with hconst | hwritten
  · exact (isSome_constOf_iff.mp (mem_filter.mp hconst).2).1
  · obtain ⟨o, ho, hout⟩ := mem_writesOf.mp hwritten
    exact hord.listed o ho t (mem_append_right _ hout)

/-- What an op of an island writes is in single precision, and what another op writes, that makes no
views, is not. -/
theorem mem_islandTensors_of_writes (hord : g.Ordered) (ho : o ∈ g.ops) (halias : o.isAlias = false)
    (ht : t ∈ o.outputs) :
    t ∈ islandTensors flagged g ↔ inIsland flagged o = true := by
  rw [mem_islandTensors_iff hord]
  constructor
  · rintro ⟨b, hroot, hpath⟩
    have hlast := hpath.cases_tail
    rcases hlast with rfl | ⟨c, -, o', ho', halias', -, hout⟩
    · rcases hroot with ⟨-, hconst⟩ | ⟨o', ho', hisland, hout⟩
      · exact absurd (PolicyGraph.mem_given_of_const hconst)
          (hord.apart t (mem_writesOf.mpr ⟨o, ho, ht⟩))
      · rwa [hord.eq_of_writes ho ho' ht hout]
    · rw [hord.eq_of_writes ho ho' ht hout, halias'] at halias
      cases halias
  · intro hisland
    exact ⟨t, .inr ⟨o, ho, hisland, ht⟩, .refl⟩

/-- A view is in single precision if and only if its base is. -/
theorem mem_islandTensors_view (hord : g.Ordered) (ho : o ∈ g.ops) (halias : o.isAlias = true)
    {b : String} (hbase : o.inputs = [b]) (ht : t ∈ o.outputs) :
    t ∈ islandTensors flagged g ↔ b ∈ islandTensors flagged g := by
  have hview : ViewOf g b t := ⟨o, ho, halias, by simp [hbase], ht⟩
  refine ⟨fun hmem => ?_, fun hmem => mem_islandTensors_of_viewOf hord hmem hview⟩
  rw [mem_islandTensors_iff hord] at hmem ⊢
  obtain ⟨root, hroot, hpath⟩ := hmem
  rcases hpath.cases_tail with rfl | ⟨c, hpath', o', ho', halias', hread, hout⟩
  · rcases hroot with ⟨-, hconst⟩ | ⟨o', ho', hisland, hout⟩
    · exact absurd (PolicyGraph.mem_given_of_const hconst)
        (hord.apart t (mem_writesOf.mpr ⟨o, ho, ht⟩))
    · rw [← hord.eq_of_writes ho ho' ht hout] at hisland
      simp [inIsland, halias] at hisland
  · rw [← hord.eq_of_writes ho ho' ht hout, hbase, mem_singleton] at hread
    exact ⟨root, hroot, hread ▸ hpath'⟩

end ModelBlaster.PrecisionPolicy

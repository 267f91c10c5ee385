import ModelBlaster.Library.Fallible
import ModelBlaster.Library.PyDict
import ModelBlaster.Library.PyList
import Mathlib.Data.Rat.Init

/-!
# Chains of kernels

Fusion of a producer with its consumer. A fused op has the stages of both in one list, and one
tensor between each two of them. Its kernel has the parameters of all stages but those that read the
tensors in between, which stay in the signature as scratch.

## Main definitions

* `KernelOp`: an op with the fields that a binding reads;
* `bindParams`, `bind`: the arguments of a call;
* `makeChainSpec`: the signature of a chain;
* `fusePair`, `fuseChain`: the fusion of two ops, and of a list of them;
* `bindFused`: the arguments of a fused op;
* `seedCalls`: the calls of the composite kernel.

## Main results

* `bound_of_bindParams`: every parameter has an argument, and every tensor of the op is passed once.
-/

/-! ## The ABI of kernels -/

namespace ModelBlaster.KernelFusion

open Fallible

/-! ### Ops -/

/-- A value of JSON without parts. -/
inductive JsonAtom where
  | null
  | bool (b : Bool)
  | int (z : ℤ)
  | float (q : ℚ)
  | str (s : String)
deriving DecidableEq, Repr

/-- The value of a field. -/
inductive FieldValue where
  | atom (a : JsonAtom)
  | list (l : List JsonAtom)
deriving DecidableEq, Repr

/-- What Python takes for false. -/
def FieldValue.truthy : FieldValue → Bool
  | .atom .null => false
  | .atom (.bool b) => b
  | .atom (.int z) => z ≠ 0
  | .atom (.float q) => q ≠ 0
  | .atom (.str s) => s ≠ ""
  | .list l => l ≠ []

/-- An op. A fused op and a region have the ops that they are made of. -/
structure KernelOp where
  name : String
  /-- The kind. -/
  op : String
  inputs : List String := []
  outputs : List String := []
  /-- `shape`, of an op that is not made of others. -/
  shape : PyDict String FieldValue := PyDict.empty
  /-- `offset`, of a view. -/
  offset : Option ℤ := none
  /-- The other fields that a binding looks up. -/
  fields : PyDict String FieldValue := PyDict.empty
  /-- The tensors inside. -/
  internal : List String := []
  subOps : List KernelOp := []

/-! ### Signatures -/

/-- The type of a parameter. -/
structure CType where
  /-- `base_type` -/
  base : String
  const : Bool := false
  ptr : Bool := false
deriving DecidableEq, Repr

/-- `Param` -/
structure Param where
  ctype : CType
  name : String
deriving DecidableEq, Repr

/-- `is_const_ptr` -/
def Param.isConstPtr (p : Param) : Bool := p.ctype.ptr && p.ctype.const

/-- A pointer that the kernel writes through. -/
def Param.isOutPtr (p : Param) : Bool := p.ctype.ptr && !p.ctype.const

/-- `kind` and `value` of an `Arg`. -/
inductive ArgValue where
  | input (t : String)
  | output (t : String)
  | scratch (t : String)
  | weight (key : FieldValue)
  | null
  | scalar (v : FieldValue)
deriving DecidableEq, Repr

/-- `Arg` -/
structure Arg where
  value : ArgValue
  param : Param
deriving DecidableEq, Repr

/-- How binding and fusion fail. -/
inductive KernelError where
  /-- `BindError` -/
  | bindError
  | valueError
  | keyError
  | indexError
  | stopIteration
deriving DecidableEq, Repr

/-- `WEIGHT_ROLES` -/
def weightRole : String → Option String
  | "weight" => some "weight"
  | "scale" => some "weight"
  | "bias" => some "bias"
  | "gamma" => some "gamma_key"
  | "beta" => some "beta_key"
  | _ => none

/-- `_DEFAULTS` and `_OP_DEFAULTS` -/
def defaultScalar (kind name : String) : Option FieldValue :=
  match name with
  | "DH" | "DW" => some (.atom (.int 1))
  | "alpha" => some (.atom (.float 1))
  | "input_scale" => if kind = "softmax_f16" then some (.atom (.float 1)) else none
  | "OH" | "OW" => if kind = "adaptive_avg_pool2d_f16" then some (.atom (.int 1)) else none
  | _ => none

/-- `_FIELD_ALIASES` -/
def fieldAlias (name : String) : Option String := if name = "s" then some "scalar" else none

/-- The index of `c0`, `c1`, …, `Ca` and `Cb` in `C_inputs`. -/
def channelIndex (name : String) : Option ℕ :=
  match name.toList with
  | ['c', d] => if d.isDigit then some (d.toNat - '0'.toNat) else none
  | ['C', 'a'] => some 0
  | ['C', 'b'] => some 1
  | _ => none

/-- Whether the name is `in` with a number behind it. -/
def isVariadicInput (name : String) : Bool :=
  match name.toList with
  | 'i' :: 'n' :: digits => !digits.isEmpty && digits.all Char.isDigit
  | _ => false

/-! ### Binding -/

section
variable (op : KernelOp)

/-- The element of `C_inputs` of a parameter, if the op has them. -/
def channelScalar (name : String) : Option (Except KernelError FieldValue) :=
  match channelIndex name, op.shape.get? "C_inputs" with
  | some k, some (.list l) =>
    match l[k]? with
    | some a => some (.ok (.atom a))
    | none => some (.error .indexError)
  | some _, some (.atom _) => some (.error .indexError)
  | _, _ => none

/-- What a parameter takes from the fields of the op, or from the default. -/
def fieldScalar (name : String) : Option (Except KernelError FieldValue) :=
  match op.fields.get? name with
  | some v => some (.ok v)
  | none =>
    match (fieldAlias name).bind op.fields.get? with
    | some v => some (.ok v)
    | none =>
      match channelScalar op name with
      | some r => some r
      | none => (defaultScalar op.op name).map .ok

/-- The value of a scalar. -/
def scalarValue (name : String) : Except KernelError FieldValue :=
  match op.shape.get? name with
  | some v => .ok v
  | none => (fieldScalar op name).getD (.error .bindError)

/-- The weight that a parameter takes, if it takes one: the pointer is null if the field is empty. -/
def weightArg (p : Param) : Option ArgValue :=
  match (weightRole p.name).bind op.fields.get? with
  | some key => some (if key.truthy then .weight key else .null)
  | none => none

/-- `bind`, from the inputs and outputs that are left. -/
def bindParams : List Param → List String → List String → Except KernelError (List Arg)
  | [], ins, outs => if ins = [] ∧ outs = [] then .ok [] else .error .bindError
  | p :: ps, ins, outs =>
    if p.isOutPtr then
      match outs with
      | [] => .error .bindError
      | t :: outs => do
        let args ← bindParams ps ins outs
        return ⟨.output t, p⟩ :: args
    else if p.isConstPtr then
      match weightArg op p, ins with
      | some v, ins => do
        let args ← bindParams ps ins outs
        return ⟨v, p⟩ :: args
      | none, t :: ins => do
        let args ← bindParams ps ins outs
        return ⟨.input t, p⟩ :: args
      | none, [] =>
        if isVariadicInput p.name then do
          let args ← bindParams ps [] outs
          return ⟨.null, p⟩ :: args
        else .error .bindError
    else do
      let v ← scalarValue op p.name
      let args ← bindParams ps ins outs
      return ⟨.scalar v, p⟩ :: args

/-- `bind` -/
def bind (params : List Param) : Except KernelError (List Arg) :=
  bindParams op params op.inputs op.outputs

end

/-! ### What is bound -/

/-- The tensor of an input. -/
def ArgValue.input? : ArgValue → Option String
  | .input t => some t
  | _ => none

/-- The tensor of an output. -/
def ArgValue.output? : ArgValue → Option String
  | .output t => some t
  | _ => none

/-- The argument is of the type of its parameter. -/
def Arg.Fits (a : Arg) : Prop :=
  match a.value with
  | .output _ => a.param.isOutPtr = true
  | .input _ | .weight _ | .null => a.param.isConstPtr = true ∧ a.param.isOutPtr = false
  | .scalar _ => a.param.isConstPtr = false ∧ a.param.isOutPtr = false
  | .scratch _ => False

/-- The arguments are for the parameters, in their order, and pass every tensor once. -/
structure Bound (params : List Param) (ins outs : List String) (args : List Arg) : Prop where
  params : args.map Arg.param = params
  inputs : args.filterMap (·.value.input?) = ins
  outputs : args.filterMap (·.value.output?) = outs
  fits : ∀ a ∈ args, a.Fits

theorem Bound.nil : Bound [] [] [] [] := ⟨rfl, rfl, rfl, fun _ h => absurd h List.not_mem_nil⟩

section
variable {op : KernelOp} {params : List Param} {ins outs : List String} {args : List Arg}
  {p : Param} {t : String}

theorem Bound.output (h : Bound params ins outs args) (hp : p.isOutPtr = true) :
    Bound (p :: params) ins (t :: outs) (⟨.output t, p⟩ :: args) where
  params := by rw [List.map_cons, h.params]
  inputs := h.inputs
  outputs := congrArg (t :: ·) h.outputs
  fits := List.forall_mem_cons.mpr ⟨hp, h.fits⟩

theorem Bound.input (h : Bound params ins outs args) (hp : p.isConstPtr = true)
    (hout : p.isOutPtr = false) :
    Bound (p :: params) (t :: ins) outs (⟨.input t, p⟩ :: args) where
  params := by rw [List.map_cons, h.params]
  inputs := congrArg (t :: ·) h.inputs
  outputs := h.outputs
  fits := List.forall_mem_cons.mpr ⟨⟨hp, hout⟩, h.fits⟩

/-- An argument that is no tensor. -/
theorem Bound.other (h : Bound params ins outs args) {v : ArgValue} (hin : v.input? = none)
    (hout : v.output? = none) (hfits : Arg.Fits ⟨v, p⟩) :
    Bound (p :: params) ins outs (⟨v, p⟩ :: args) where
  params := by rw [List.map_cons, h.params]
  inputs := by simp only [List.filterMap_cons, hin, h.inputs]
  outputs := by simp only [List.filterMap_cons, hout, h.outputs]
  fits := List.forall_mem_cons.mpr ⟨hfits, h.fits⟩

/-- A weight is a key, or a null pointer. -/
theorem weightArg_cases {v : ArgValue} (h : weightArg op p = some v) :
    (∃ key, v = .weight key) ∨ v = .null := by
  rw [weightArg] at h
  split at h
  next key _ =>
    cases h
    split_ifs
    · exact .inl ⟨key, rfl⟩
    · exact .inr rfl
  · cases h

/-- What `bind` returns has an argument for every parameter, and every tensor of the op once. -/
theorem bound_of_bindParams (h : bindParams op params ins outs = .ok args) :
    Bound params ins outs args := by
  induction params generalizing ins outs args with
  | nil =>
    rw [bindParams] at h
    split_ifs at h with hempty
    obtain ⟨rfl, rfl⟩ := hempty
    cases h
    exact Bound.nil
  | cons p ps ih =>
    unfold bindParams at h
    by_cases hout : p.isOutPtr = true
    · rw [if_pos hout] at h
      cases outs with
      | nil => cases h
      | cons t outs =>
        obtain ⟨rest, hrest, heq⟩ := bind_eq_ok_iff.mp h
        cases heq
        exact (ih hrest).output hout
    rw [if_neg hout] at h
    have hfalse : p.isOutPtr = false := Bool.eq_false_iff.mpr hout
    by_cases hconst : p.isConstPtr = true
    · rw [if_pos hconst] at h
      cases hw : weightArg op p with
      | some v =>
        rw [hw] at h
        obtain ⟨rest, hrest, heq⟩ := bind_eq_ok_iff.mp h
        cases heq
        rcases weightArg_cases hw with ⟨key, rfl⟩ | rfl
        · exact (ih hrest).other rfl rfl ⟨hconst, hfalse⟩
        · exact (ih hrest).other rfl rfl ⟨hconst, hfalse⟩
      | none =>
        rw [hw] at h
        cases ins with
        | cons t ins =>
          obtain ⟨rest, hrest, heq⟩ := bind_eq_ok_iff.mp h
          cases heq
          exact (ih hrest).input hconst hfalse
        | nil =>
          split_ifs at h
          obtain ⟨rest, hrest, heq⟩ := bind_eq_ok_iff.mp h
          cases heq
          exact (ih hrest).other rfl rfl ⟨hconst, hfalse⟩
    · rw [if_neg hconst] at h
      obtain ⟨v, -, h⟩ := bind_eq_ok_iff.mp h
      obtain ⟨rest, hrest, heq⟩ := bind_eq_ok_iff.mp h
      cases heq
      exact (ih hrest).other rfl rfl ⟨Bool.eq_false_iff.mpr hconst, hfalse⟩

end

/-! ### Kinds -/

/-- The parts of a name between `__`. -/
def splitDunder : List Char → List (List Char)
  | [] => [[]]
  | '_' :: '_' :: rest => [] :: splitDunder rest
  | c :: rest =>
    match splitDunder rest with
    | [] => [[c]]
    | part :: parts => (c :: part) :: parts

/-- The name without a `kernel_` in front. -/
def removeKernelPrefix (kind : List Char) : List Char :=
  if "kernel_".toList.isPrefixOf kind then kind.drop 7 else kind

/-- Storage types. -/
inductive StorageDtype where
  | fp32
  | fp16
  | bf16
deriving DecidableEq, Repr

/-- `_suffix_dtype` -/
def suffixDtype (name : List Char) : StorageDtype :=
  if "_bf16".toList.isSuffixOf name then .bf16
  else if "_f16".toList.isSuffixOf name then .fp16
  else .fp32

/-- `op_dtype` -/
def opDtype (kind : String) : StorageDtype :=
  let base := removeKernelPrefix kind.toList
  if "fused__".toList.isPrefixOf base then
    match (splitDunder base).tail.filter fun part => part ≠ [] ∧ part ≠ "par".toList with
    | [] => .fp32
    | part :: _ => suffixDtype part
  else suffixDtype base

/-- `CASTS` -/
def casts : List (String × String) :=
  [("bf16", "f16"), ("bf16", "f32"), ("b8", "f32"), ("f16", "bf16"), ("f16", "f32"), ("f32", "b8"),
    ("f32", "bf16"), ("f32", "f16"), ("f32", "i32"), ("f32", "i64"), ("f32", "u8"), ("i32", "f32"),
    ("i64", "f32"), ("u8", "f32")]

/-- Whether `parse_cast` finds a cast. -/
def isCast (kind : String) : Bool :=
  casts.any fun c => removeKernelPrefix kind.toList = ("cast_" ++ c.1 ++ "_to_" ++ c.2).toList

/-! ### Signatures -/

/-- A `KernelSpec`, and what a `FusedKernelSpec` has besides. -/
structure KernelSpec where
  op : String
  /-- The parameters of the signature. -/
  params : List Param
  subOps : List String := []
  tParams : List String := []
deriving DecidableEq

/-- The specs by their kinds. -/
abbrev Specs : Type := PyDict String KernelSpec

/-- `STAGE_LETTERS` -/
def stageLetters : List Char := "abcdefghijklmnopqrstuvwxyz".toList

/-- `stage_prefix` -/
def stagePrefix (i : ℕ) : Except KernelError String :=
  match stageLetters[i]? with
  | some c => .ok (String.ofList [c, '_'])
  | none => .error .indexError

section
variable (specs : Specs)

/-- The parameters of a kind. -/
def paramsOf (kind : String) : Except KernelError (List Param) :=
  match specs.get? kind with
  | some spec => .ok spec.params
  | none => .error .keyError

/-- `bind`, with the signature of the kind of the op. -/
def bindOp (op : KernelOp) : Except KernelError (List Arg) := do
  let params ← paramsOf specs op.op
  bind op params

/-- `_act_inputs` -/
def actInputs (kind : String) : Except KernelError (List String) := do
  let params ← paramsOf specs kind
  return (params.filter fun p => p.isConstPtr && (weightRole p.name).isNone).map Param.name

/-- `_t_param` -/
def tParam (b : KernelOp) (t : String) : Except KernelError String := do
  let args ← bindOp specs b
  match args.find? fun a => a.value = .input t with
  | some a => return a.param.name
  | none => .error .stopIteration

/-- The tokens of a stage behind the first. -/
def stageTokens (stage : String × String) : Except KernelError (List String) :=
  if 1 < (splitDunder stage.1.toList).length then .error .valueError
  else do
    let acts ← actInputs specs stage.1
    return if 1 < acts.length then [stage.1, stage.2] else [stage.1]

/-- `chain_kind` -/
def chainKind (kinds tParams : List String) : Except KernelError String :=
  match kinds with
  | [] => .error .indexError
  | kind :: rest => do
    let tokens ← (rest.zip tParams).mapM (stageTokens specs)
    return "__".intercalate ("fused" :: kind :: tokens.flatten)

/-- The parameter through which a stage writes first. -/
def firstOut (params : List Param) : Except KernelError String :=
  match params.find? Param.isOutPtr with
  | some p => .ok p.name
  | none => .error .stopIteration

/-- The parameter of a stage that reads the tensor in front of it, if there is one. -/
def readingParam (tParams : List String) : ℕ → Except KernelError (Option String)
  | 0 => .ok none
  | i + 1 =>
    match tParams[i]? with
    | some name => .ok (some name)
    | none => .error .indexError

/-- The parameters that a stage has in the signature of a chain. -/
def stageParams (tParams : List String) (stage : List Param × ℕ) :
    Except KernelError (List Param) := do
  let letter ← stagePrefix stage.2
  let reading ← readingParam tParams stage.2
  return (stage.1.filter fun p => reading ≠ some p.name).map fun p => ⟨p.ctype, letter ++ p.name⟩

/-- `make_chain_spec` -/
def makeChainSpec (kinds tParams : List String) : Except KernelError KernelSpec := do
  let kind ← chainKind specs kinds tParams
  let sigs ← kinds.mapM (paramsOf specs)
  let params ← sigs.zipIdx.mapM (stageParams tParams)
  let _ ← sigs.mapM firstOut
  return { op := kind, params := params.flatten, subOps := kinds, tParams := tParams }

/-! ### Fusion -/

/-- A graph, with the tensors that it returns. -/
structure KernelGraph where
  ops : List KernelOp
  /-- `_graph_outputs` -/
  outputs : List String

/-- `stages_of` -/
def stagesOf (op : KernelOp) : List KernelOp := if op.subOps.isEmpty then [op] else op.subOps

/-- The parameter through which a stage reads the tensor in front of it. -/
def tParamAt (stages : List KernelOp) (internal : List String) (i : ℕ) :
    Except KernelError String :=
  match stages[i + 1]?, internal[i]? with
  | some s, some t => tParam specs s t
  | _, _ => .error .indexError

/-- The fused op and its spec. -/
def fuseOps (A B : KernelOp) (t : String) : Except KernelError (KernelOp × KernelSpec) := do
  let stages := stagesOf A ++ stagesOf B
  let internal := A.internal ++ [t] ++ B.internal
  let tps ← (List.range (stages.length - 1)).mapM (tParamAt specs stages internal)
  let spec ← makeChainSpec specs (stages.map KernelOp.op) tps
  return ({
    name := A.name ++ "+" ++ B.name
    op := spec.op
    inputs := PyList.orderedUnique (A.inputs ++ B.inputs.filter (· ≠ t))
    outputs := B.outputs
    internal := internal
    subOps := stages }, spec)

/-- Nothing but `B` reads the only output of `A`, and the stages are of one storage type. -/
structure PairAccepted (g : KernelGraph) (A B : KernelOp) (t : String) : Prop where
  outputs : A.outputs = [t]
  shared : A.outputs.filter (· ∈ B.inputs) = [t]
  readers : (g.ops.filter (t ∈ ·.inputs)).map KernelOp.name = [B.name]
  not_returned : t ∉ g.outputs
  once : B.inputs.count t = 1
  first : ∀ s ∈ (stagesOf B).head?, t ∈ s.inputs
  no_cast : ∀ s ∈ stagesOf A ++ stagesOf B, isCast s.op = false
  one_dtype : ∀ s ∈ stagesOf A ++ stagesOf B, ∀ s' ∈ stagesOf A ++ stagesOf B,
    opDtype s.op = opDtype s'.op

instance (g : KernelGraph) (A B : KernelOp) (t : String) : Decidable (PairAccepted g A B t) :=
  decidable_of_iff
    (A.outputs = [t] ∧ A.outputs.filter (· ∈ B.inputs) = [t] ∧
      (g.ops.filter (t ∈ ·.inputs)).map KernelOp.name = [B.name] ∧ t ∉ g.outputs ∧
      B.inputs.count t = 1 ∧ (∀ s ∈ (stagesOf B).head?, t ∈ s.inputs) ∧
      (∀ s ∈ stagesOf A ++ stagesOf B, isCast s.op = false) ∧
      ∀ s ∈ stagesOf A ++ stagesOf B, ∀ s' ∈ stagesOf A ++ stagesOf B, opDtype s.op = opDtype s'.op)
    ⟨fun ⟨h₁, h₂, h₃, h₄, h₅, h₆, h₇, h₈⟩ => ⟨h₁, h₂, h₃, h₄, h₅, h₆, h₇, h₈⟩,
      fun ⟨h₁, h₂, h₃, h₄, h₅, h₆, h₇, h₈⟩ => ⟨h₁, h₂, h₃, h₄, h₅, h₆, h₇, h₈⟩⟩

/-- The place of the first op with a name. -/
def indexOf (g : KernelGraph) (name : String) : Except KernelError ℕ :=
  match g.ops.findIdx? (·.name = name) with
  | some i => .ok i
  | none => .error .stopIteration

/-- `fuse_pair` -/
def fusePair (g : KernelGraph) (a b : String) : Except KernelError (KernelGraph × KernelSpec) := do
  let ia ← indexOf g a
  let ib ← indexOf g b
  match g.ops[ia]?, g.ops[ib]? with
  | some A, some B =>
    match A.outputs with
    | [t] =>
      if PairAccepted g A B t then do
        let fused ← fuseOps specs A B t
        return (⟨(g.ops.set ib fused.1).eraseIdx ia, g.outputs⟩, fused.2)
      else .error .valueError
    | _ => .error .valueError
  | _, _ => .error .indexError

/-- `fuse_chain` -/
def fuseChain (g : KernelGraph) (names : List String) :
    Except KernelError (KernelGraph × KernelSpec) :=
  match names with
  | a :: b :: rest => do
    let first ← fusePair specs g a b
    let last ← rest.foldlM (fun (st : (KernelGraph × KernelSpec) × String) next => do
      let fused ← fusePair specs st.1.1 st.2 next
      return (fused, st.2 ++ "+" ++ next)) (first, a ++ "+" ++ b)
    return last.1
  | [_] => .error .valueError
  | [] => .error .indexError

/-! ### Calls -/

/-- An output that the next stage reads is scratch. -/
def asScratch (internal : List String) (stages i : ℕ) (a : Arg) : Arg :=
  match a.value with
  | .output t => if i + 1 < stages ∧ internal[i]? = some t then { a with value := .scratch t } else a
  | _ => a

/-- Whether the argument reads the output of the stage in front. -/
def readsPrevious (internal : List String) (i : ℕ) (a : Arg) : Bool :=
  match i, a.value with
  | i + 1, .input t => internal[i]? = some t
  | _, _ => false

/-- The arguments that a stage adds to those of a fused op. -/
def bindStage (internal : List String) (stages : ℕ) (stage : KernelOp × ℕ) :
    Except KernelError (List Arg) := do
  let args ← bindOp specs stage.1
  return (args.map (asScratch internal stages stage.2)).filter fun a =>
    !readsPrevious internal stage.2 a

/-- `bind_fused` -/
def bindFused (op : KernelOp) : Except KernelError (List Arg) := do
  let args ← op.subOps.zipIdx.mapM (bindStage specs op.internal op.subOps.length)
  return args.flatten

/-- What a call passes for a parameter of a stage: the name of a parameter of the chain. -/
def seedArg (tParams outs : List String) (i : ℕ) (p : Param) : Except KernelError (Param × String) := do
  let reading ← readingParam tParams i
  if reading = some p.name then do
    let letter ← stagePrefix (i - 1)
    match outs[i - 1]? with
    | some out => return (p, letter ++ out)
    | none => .error .indexError
  else do
    let letter ← stagePrefix i
    return (p, letter ++ p.name)

/-- The calls of `FusedKernelSpec.cuda_seed`: the kind of each stage, and what is passed for its
parameters. -/
def seedCalls (spec : KernelSpec) : Except KernelError (List (String × List (Param × String))) := do
  let sigs ← spec.subOps.mapM (paramsOf specs)
  let outs ← sigs.mapM firstOut
  (spec.subOps.zip sigs).zipIdx.mapM fun stage => do
    let args ← stage.1.2.mapM (seedArg spec.tParams outs stage.2)
    return (stage.1.1, args)

end

end ModelBlaster.KernelFusion

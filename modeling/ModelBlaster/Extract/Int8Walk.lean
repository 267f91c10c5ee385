import ModelBlaster.Library.Fallible

/-!
# The scales of the int8 extractor

`extract_int8` walks over the nodes of a traced graph and emits the ops of the int8 IR. It keeps two
tables: `scales`, which begins as the calibration and is read wherever a scale goes into an op, and
`tensors_meta`, with the scale that is recorded of each tensor. The model has what the scales depend
on, for an extraction without per-channel weights and without fp16 islands. Shapes and weights are
left out, but for the scales of the weights.

## Main definitions

* `FxNode`: a node of the traced graph;
* `QuantOp`: an op of the IR, with its scales;
* `emit`: the branch of the walk for a node;
* `extractInt8`: the extraction;
* `written`: the scales at which tensors were written;
* `ScaleConsistent`: the property of the IR;
* `carried`: the scale that a node should have;
* `Calibrated`: the calibration gives what copies the scale that it should have;
* `owner`: the node whose branch writes the entries of a node.

## Main results

* `carried_eq`: the scale of a node follows from those of its arguments;
* `mem_reluAfter`, `mem_convBnConsumed`: the absorbed nodes, by where they stand.
-/

namespace ModelBlaster.Extract.Int8

/-! ### Traced graphs -/

/-- The ops with one input and a scale for each side. -/
inductive UnaryOp where
  | sigmoid
  | elu
  | gelu
  | layernorm
  | rmsnorm
  | leakyRelu
  | sin
  | cos
  | softmax
  deriving DecidableEq, Repr

/-- What a node computes. A module with weights comes with the scales of its weights. -/
inductive FxKind (κ : Type) where
  | placeholder
  | linear (wScale : κ)
  | conv2d (wScale : κ)
  | batchNorm2d
  | relu
  | relu6
  | maxPool2d
  | avgPool2d
  | dropout
  | upsample
  | flatten
  /-- `unsqueeze` and `squeeze` -/
  | rankChange
  | silu
  /-- `functional.silu`, which has no branch of its own. -/
  | functionalSilu
  | unary (op : UnaryOp)
  /-- An LSTM, with the scales of the two weights of each layer. It has a layer at least. -/
  | lstm (first : κ × κ) (others : List (κ × κ))
  | add
  | mul
  | cat
  | sdpa
  | chunk
  | getitem (index : ℕ)
  | output
  | unsupported
  deriving DecidableEq, Repr

/-- A node of the traced graph. -/
structure FxNode (κ : Type) where
  name : String
  /-- The path of a module, and the name of another node. -/
  target : String
  kind : FxKind κ
  /-- The nodes among the arguments. -/
  args : List String
  /-- `len(node.args)` -/
  argc : ℕ
  deriving DecidableEq, Repr

/-! ### Ops -/

/-- The name of a tensor: that of a node, or one that a branch makes up. -/
inductive Tensor where
  | node (name : String)
  | scores (name : String)
  | probs (name : String)
  | hState (target : String) (layer : ℕ)
  | cState (target : String) (layer : ℕ)
  | layerOut (target : String) (layer : ℕ)
  deriving DecidableEq, Repr

/-- The scales of an op. -/
inductive Quant (κ : Type) where
  /-- None: the values are copied or clamped. -/
  | copy
  /-- The multiplier and the shift are those of `scaleIn * scaleW / scaleOut`, and the bias is in
  units of `scaleIn * scaleW`. -/
  | folded (scaleIn scaleW scaleOut : κ)
  | unary (scaleIn scaleOut : κ)
  | binary (scaleA scaleB scaleOut : κ)
  | concat (scalesIn : List κ) (scaleOut : κ)
  | lstm (scaleIn scaleWih scaleWhh scaleB scaleH scaleC : κ)
  deriving DecidableEq, Repr

/-- The scales at which an op reads its inputs. -/
def Quant.reads {κ : Type} : Quant κ → List κ
  | .copy => []
  | .folded scaleIn _ _ => [scaleIn]
  | .unary scaleIn _ => [scaleIn]
  | .binary scaleA scaleB _ => [scaleA, scaleB]
  | .concat scalesIn _ => scalesIn
  | .lstm scaleIn _ _ _ _ _ => [scaleIn]

/-- The scale at which an op writes, when it requantizes. -/
def Quant.out {κ : Type} : Quant κ → Option κ
  | .copy => none
  | .folded _ _ scaleOut => some scaleOut
  | .unary _ scaleOut => some scaleOut
  | .binary _ _ scaleOut => some scaleOut
  | .concat _ scaleOut => some scaleOut
  | .lstm _ _ _ _ scaleH _ => some scaleH

/-- An op with its scales. -/
structure QuantOp (κ : Type) where
  name : String
  op : String
  inputs : List Tensor
  outputs : List Tensor
  quant : Quant κ
  deriving DecidableEq, Repr

/-- An op of the IR. -/
inductive IrOp (κ : Type) where
  | plain (o : QuantOp κ)
  /-- A convolution with what was absorbed, by its `sub_ops`. -/
  | fused (name op : String) (inputs outputs : List Tensor) (subOps : List (QuantOp κ))
  deriving DecidableEq, Repr

namespace IrOp

variable {κ : Type}

/-- The ops with scales. -/
def parts : IrOp κ → List (QuantOp κ)
  | plain o => [o]
  | fused _ _ _ _ subOps => subOps

def inputs : IrOp κ → List Tensor
  | plain o => o.inputs
  | fused _ _ inputs _ _ => inputs

def outputs : IrOp κ → List Tensor
  | plain o => o.outputs
  | fused _ _ _ outputs _ => outputs

end IrOp

/-! ### Fusion -/

section
variable {κ : Type}

/-- `node.users` -/
def users (nodes : List (FxNode κ)) (name : String) : List (FxNode κ) :=
  nodes.filter fun m => name ∈ m.args

/-- A relu of `p`. -/
def isReluOf (p r : FxNode κ) : Bool :=
  match r.kind with
  | .relu => r.argc = 1 ∧ r.args = [p.name]
  | _ => false

/-- The relus that stand right behind the node that they read, for some of these nodes. -/
def reluAfter (sel : FxKind κ → Bool) (nodes : List (FxNode κ)) : List String :=
  (nodes.zip nodes.tail).filterMap fun p =>
    if isReluOf p.1 p.2 && sel p.1.kind then some p.2.name else none

/-- `fused_linear_relu` -/
def fusedLinearRelu (nodes : List (FxNode κ)) : List String :=
  reluAfter (fun | .linear _ => true | _ => false) nodes

/-- `fused_conv2d_relu` -/
def fusedConv2dRelu (nodes : List (FxNode κ)) : List String :=
  reluAfter (fun | .conv2d _ => true | _ => false) nodes

/-- `fused_bn_relu` -/
def fusedBnRelu (nodes : List (FxNode κ)) : List String :=
  reluAfter (fun | .batchNorm2d => true | _ => false) nodes

/-- `fused_add_relu` -/
def fusedAddRelu (nodes : List (FxNode κ)) : List String :=
  reluAfter (fun | .add => true | _ => false) nodes

/-- `fused_relu_after` -/
def fusedReluAfter (nodes : List (FxNode κ)) : List String :=
  fusedLinearRelu nodes ++ fusedConv2dRelu nodes ++ fusedAddRelu nodes ++ fusedBnRelu nodes

/-- The activations that a convolution absorbs behind a batch norm. -/
def isActivation : FxKind κ → Bool
  | .relu | .silu | .functionalSilu => true
  | _ => false

/-- `conv_bn_fusion`, for a convolution with the nodes behind it. -/
def convBnFusion (nodes : List (FxNode κ)) (conv : FxNode κ) (rest : List (FxNode κ)) :
    Option (FxNode κ × Option (FxNode κ)) :=
  match conv.kind, rest with
  | .conv2d _, bn :: rest =>
    match bn.kind with
    | .batchNorm2d =>
      if (users nodes conv.name).length = 1 ∧ bn.args.head? = some conv.name then
        match rest with
        | act :: _ =>
          if (users nodes bn.name).length = 1 ∧ isActivation act.kind ∧ act.argc = 1 ∧
              act.args = [bn.name] then
            some (bn, some act)
          else some (bn, none)
        | [] => some (bn, none)
      else none
    | _ => none
  | _, _ => none

/-- `conv_bn_consumed` -/
def convBnConsumed (nodes : List (FxNode κ)) : List (FxNode κ) → List String
  | [] => []
  | conv :: rest =>
    (match convBnFusion nodes conv rest with
      | some (bn, act) => bn.name :: (act.map FxNode.name).toList
      | none => []) ++ convBnConsumed nodes rest

/-- The nodes that take an element of a result. The index is a number. -/
def getitems (nodes : List (FxNode κ)) (name : String) (index : ℕ) : List (FxNode κ) :=
  nodes.filter fun m =>
    match m.kind with
    | .getitem i => i = index ∧ m.args = [name]
    | _ => false

/-- `_find_getitem_consumer` -/
def findGetitem (nodes : List (FxNode κ)) (name : String) (index : ℕ) : Option (FxNode κ) :=
  (getitems nodes name index).head?

end

/-! ### The walk -/

/-- The exceptions of the extractor. -/
inductive WalkError where
  | keyError
  | notImplemented
  | indexError
  | runtimeError
  deriving DecidableEq, Repr

/-- The scales that the code names, as the floats that they are. -/
structure Constants (κ : Type) where
  /-- `1.0 / 127.0` -/
  unit : κ
  /-- `8.0 / 127.0` -/
  cell : κ
  /-- `32.0` -/
  headroom : κ

/-- A table of scales. -/
abbrev Table (κ : Type) := Tensor → Option κ

/-- The state of the walk. -/
structure Walk (κ : Type) where
  scales : Table κ
  /-- The scales in `tensors_meta`. -/
  recorded : Table κ
  ops : List (IrOp κ)
  skip : List String

/-- What a branch adds to the state. -/
structure Emission (κ : Type) where
  ops : List (IrOp κ)
  scales : List (Tensor × κ) := []
  recorded : List (Tensor × κ)
  skip : List String := []

section
variable {κ : Type}

/-- Entries written to a table. -/
def Table.write (table : Table κ) (entries : List (Tensor × κ)) : Table κ :=
  entries.foldl (fun table e => Function.update table e.1 (some e.2)) table

/-- `table[t]` -/
def look (table : Table κ) (t : Tensor) : Except WalkError κ :=
  match table t with
  | some s => .ok s
  | none => .error .keyError

/-- The scale of an input. Its shape is read from `tensors_meta`. -/
def Walk.input (st : Walk κ) (x : String) : Except WalkError κ := do
  let _ ← look st.recorded (.node x)
  look st.scales (.node x)

/-- `node.args[0]` -/
def FxNode.arg (n : FxNode κ) : Except WalkError String :=
  match n.args with
  | x :: _ => .ok x
  | [] => .error .indexError

/-- The relu that a node absorbs. -/
def absorbed (fused : List String) : List (FxNode κ) → Option String
  | next :: _ => if next.name ∈ fused then some next.name else none
  | [] => none

/-- Entries for the absorbed relu, unless it is in `tensors_meta`. -/
def unlessRecorded (st : Walk κ) (relu : Option String) (s : κ) : List (Tensor × κ) :=
  match relu with
  | some r => if (st.recorded (.node r)).isSome then [] else [(.node r, s)]
  | none => []

/-- An op with one input that requantizes. The relu that it absorbs goes into `tensors_meta`. -/
def emitRequant (st : Walk κ) (n : FxNode κ) (op : String) (relu : Option String)
    (quant : κ → κ → Quant κ) : Except WalkError (Emission κ) := do
  let x ← n.arg
  let scaleIn ← st.input x
  let scaleOut ← look st.scales (.node n.name)
  return {
    ops := [.plain ⟨n.target, op, [.node x], [.node (relu.getD n.name)], quant scaleIn scaleOut⟩]
    recorded := (.node n.name, scaleOut) :: unlessRecorded st relu scaleOut }

/-- An op that copies, and leaves its output the scale of its input. -/
def emitCopy (st : Walk κ) (n : FxNode κ) (op : String) : Except WalkError (Emission κ) := do
  let x ← n.arg
  let scaleIn ← st.input x
  let _ ← look st.scales (.node n.name)
  return {
    ops := [.plain ⟨n.target, op, [.node x], [.node n.name], .copy⟩]
    scales := [(.node n.name, scaleIn)]
    recorded := [(.node n.name, scaleIn)] }

/-- `relu6_s8`, whose output has the scale of its input before it is recorded. -/
def emitRelu6 (st : Walk κ) (n : FxNode κ) : Except WalkError (Emission κ) := do
  let x ← n.arg
  let scaleIn ← st.input x
  return {
    ops := [.plain ⟨n.target, "relu6_s8", [.node x], [.node n.name], .copy⟩]
    scales := [(.node n.name, scaleIn)]
    recorded := [(.node n.name, scaleIn)] }

/-- A relu on its own. -/
def emitRelu (st : Walk κ) (n : FxNode κ) : Except WalkError (Emission κ) := do
  let x ← n.arg
  let _ ← look st.recorded (.node x)
  let scale ← look st.scales (.node n.name)
  return {
    ops := [.plain ⟨n.target, "relu_s8", [.node x], [.node n.name], .copy⟩]
    recorded := [(.node n.name, scale)] }

/-- A convolution that absorbs a batch norm and an activation. -/
def emitConvBn (st : Walk κ) (n : FxNode κ) (wScale : κ) (bn : FxNode κ) (act : Option (FxNode κ)) :
    Except WalkError (Emission κ) := do
  let x ← n.arg
  let scaleIn ← st.input x
  let convOut ← look st.scales (.node n.name)
  let bnOut ← look st.scales (.node bn.name)
  let convSub : QuantOp κ :=
    ⟨n.target, "conv2d_s8", [.node x], [.node n.name], .folded scaleIn wScale convOut⟩
  let bnSub (out : String) : QuantOp κ :=
    ⟨bn.target, "batchnorm2d_s8", [.node n.name], [.node out], .unary convOut bnOut⟩
  match act with
  | none =>
    return {
      ops := [.fused n.target "conv2d_batchnorm2d_s8" [.node x] [.node bn.name]
        [convSub, bnSub bn.name]]
      scales := [(.node bn.name, bnOut)]
      recorded := [(.node bn.name, bnOut)] }
  | some act =>
    match act.kind with
    | .relu =>
      return {
        ops := [.fused n.target "conv2d_batchnorm2d_s8" [.node x] [.node act.name]
          [convSub, bnSub act.name]]
        scales := [(.node act.name, bnOut)]
        recorded := [(.node act.name, bnOut)] }
    | _ => do
      let siluOut ← look st.scales (.node act.name)
      return {
        ops := [.fused n.target "conv2d_batchnorm2d_silu_s8" [.node x] [.node act.name]
          [convSub, bnSub bn.name, ⟨act.target, "silu_s8", [.node bn.name], [.node act.name],
            .unary bnOut siluOut⟩]]
        scales := [(.node act.name, siluOut)]
        recorded := [(.node act.name, siluOut)] }

/-- `add_s8`, with the relu that it absorbs. -/
def emitAdd (st : Walk κ) (n : FxNode κ) (relu : Option String) :
    Except WalkError (Emission κ) := do
  match n.args with
  | a :: b :: _ => do
    let scaleOut ← look st.scales (.node n.name)
    let scaleA ← st.input a
    let scaleB ← look st.scales (.node b)
    return {
      ops := [.plain ⟨n.target, "add_s8", [.node a, .node b], [.node (relu.getD n.name)],
        .binary scaleA scaleB scaleOut⟩]
      scales := unlessRecorded st relu scaleOut
      recorded := (.node n.name, scaleOut) :: unlessRecorded st relu scaleOut
      skip := relu.toList }
  | _ => .error .indexError

/-- `mul_s8` -/
def emitMul (st : Walk κ) (n : FxNode κ) : Except WalkError (Emission κ) := do
  match n.args with
  | a :: b :: _ => do
    let scaleA ← st.input a
    let scaleB ← st.input b
    let scaleOut ← look st.scales (.node n.name)
    return {
      ops := [.plain ⟨n.target, "mul_s8", [.node a, .node b], [.node n.name],
        .binary scaleA scaleB scaleOut⟩]
      recorded := [(.node n.name, scaleOut)] }
  | _ => .error .indexError

/-- `cat2_c1_s8`, `cat3_c1_s8` and `cat4_c1_s8` -/
def emitCat (st : Walk κ) (n : FxNode κ) : Except WalkError (Emission κ) :=
  if n.args.length ∈ [2, 3, 4] then do
    let scalesIn ← n.args.mapM st.input
    let scaleOut ← look st.scales (.node n.name)
    return {
      ops := [.plain ⟨n.target, "cat" ++ toString n.args.length ++ "_c1_s8",
        n.args.map .node, [.node n.name], .concat scalesIn scaleOut⟩]
      recorded := [(.node n.name, scaleOut)] }
  else .error .notImplemented

/-- The layers of an LSTM from the `layer`-th on: its ops, and its other tensors. -/
def lstmLayers [Mul κ] (c : Constants κ) (target out : String) :
    ℕ → Tensor → κ → List (κ × κ) → List (QuantOp κ) × List (Tensor × κ)
  | _, _, _, [] => ([], [])
  | layer, curIn, curScale, (scaleWih, scaleWhh) :: rest =>
    let name := target ++ ".l" ++ toString layer
    let outTensor := if rest.isEmpty then .node out else .layerOut target layer
    let op : QuantOp κ := ⟨name, "lstm_s8", [curIn], [outTensor],
      .lstm curScale scaleWih scaleWhh (curScale * scaleWih) c.unit c.cell⟩
    let entries := [(.hState target layer, c.unit), (.cState target layer, c.cell)] ++
      if rest.isEmpty then [] else [(outTensor, c.unit)]
    let (ops, others) := lstmLayers c target out (layer + 1) outTensor c.unit rest
    (op :: ops, entries ++ others)

/-- The ops of an LSTM. The nodes that take its result apart are skipped. -/
def emitLstm [Mul κ] (c : Constants κ) (nodes : List (FxNode κ)) (st : Walk κ) (n : FxNode κ)
    (layers : List (κ × κ)) : Except WalkError (Emission κ) := do
  let x ← n.arg
  match findGetitem nodes n.name 0 with
  | none => .error .notImplemented
  | some out => do
    let scaleIn ← st.input x
    let (ops, entries) := lstmLayers c n.target out.name 0 (.node x) scaleIn layers
    let emission : Emission κ := {
      ops := ops.map .plain
      scales := entries ++ [(.node out.name, c.unit)]
      recorded := entries ++ [(.node out.name, c.unit)]
      skip := [out.name] }
    match findGetitem nodes n.name 1 with
    | none => return emission
    | some state =>
      if (users nodes state.name).isEmpty then
        return { emission with skip := [out.name, state.name] }
      else .error .notImplemented

/-- `scaled_dot_product_attention`, as two products and a softmax. -/
def emitSdpa [Mul κ] (c : Constants κ) (st : Walk κ) (n : FxNode κ) :
    Except WalkError (Emission κ) := do
  match n.args with
  | [q, k, v] => do
    let scaleOut ← look st.scales (.node n.name)
    let scaleQ ← st.input q
    let scaleK ← st.input k
    let scaleV ← st.input v
    let scScale := scaleQ * scaleK * c.headroom
    let entries := [(.scores n.name, scScale), (.probs n.name, c.unit)]
    return {
      ops := [
        .plain ⟨n.name ++ ".qk", "matmul_s8", [.node q, .node k], [.scores n.name],
          .binary scaleQ scaleK scScale⟩,
        .plain ⟨n.name ++ ".softmax", "softmax_s8", [.scores n.name], [.probs n.name],
          .unary scScale c.unit⟩,
        .plain ⟨n.name ++ ".av", "matmul_s8", [.probs n.name, .node v], [.node n.name],
          .binary c.unit scaleV scaleOut⟩]
      scales := entries
      recorded := (.node n.name, scaleOut) :: entries }
  | _ => .error .notImplemented

/-- `chunk2_c1`. Its outputs keep the scales that they were calibrated to. -/
def emitChunk (nodes : List (FxNode κ)) (st : Walk κ) (n : FxNode κ) :
    Except WalkError (Emission κ) := do
  let x ← n.arg
  match (getitems nodes n.name 0).getLast?, (getitems nodes n.name 1).getLast? with
  | some g₀, some g₁ => do
    let scaleIn ← st.input x
    let entries := [g₀, g₁].map fun g =>
      (Tensor.node g.name, (st.scales (.node g.name)).getD scaleIn)
    return {
      ops := [.plain ⟨n.name, "chunk2_c1", [.node x], [.node g₀.name, .node g₁.name], .copy⟩]
      scales := entries
      recorded := entries
      skip := [g₀.name, g₁.name] }
  | _, _ => .error .notImplemented

/-- The op of a kind with one input and a scale for each side. -/
def UnaryOp.opName : UnaryOp → String
  | .sigmoid => "sigmoid_s8"
  | .elu => "elu_s8"
  | .gelu => "gelu_s8"
  | .layernorm => "layernorm_s8"
  | .rmsnorm => "rmsnorm_s8"
  | .leakyRelu => "leaky_relu_s8"
  | .sin => "sin_s8"
  | .cos => "cos_s8"
  | .softmax => "softmax_s8"

/-- The branch of the walk for a node, with the nodes behind it. -/
def emit [Mul κ] (c : Constants κ) (nodes : List (FxNode κ)) (st : Walk κ) (n : FxNode κ)
    (rest : List (FxNode κ)) : Except WalkError (Emission κ) :=
  match n.kind with
  | .placeholder => do
    let scale ← look st.scales (.node n.name)
    return { ops := [], recorded := [(.node n.name, scale)] }
  | .linear w => emitRequant st n "linear_s8" (absorbed (fusedReluAfter nodes) rest) (.folded · w ·)
  | .conv2d w =>
    match convBnFusion nodes n rest with
    | some (bn, act) => emitConvBn st n w bn act
    | none =>
      emitRequant st n "conv2d_s8" (absorbed (fusedReluAfter nodes) rest) (.folded · w ·)
  | .batchNorm2d => emitRequant st n "batchnorm2d_s8" (absorbed (fusedBnRelu nodes) rest) .unary
  | .relu =>
    if n.name ∈ fusedReluAfter nodes then return { ops := [], recorded := [] } else emitRelu st n
  | .relu6 => emitRelu6 st n
  | .maxPool2d => emitCopy st n "maxpool2d_s8"
  | .avgPool2d => emitCopy st n "avgpool2d_s8"
  | .dropout => emitCopy st n "view"
  | .upsample => emitCopy st n "upsample_nearest_s8"
  | .flatten => emitCopy st n "view"
  | .rankChange => emitCopy st n "view"
  | .silu => emitRequant st n "silu_s8" none .unary
  | .unary op => emitRequant st n op.opName none .unary
  | .lstm first others => emitLstm c nodes st n (first :: others)
  | .add => emitAdd st n (absorbed (fusedAddRelu nodes) rest)
  | .mul => emitMul st n
  | .cat => emitCat st n
  | .sdpa => emitSdpa c st n
  | .chunk => emitChunk nodes st n
  | .output => return { ops := [], recorded := [] }
  | .functionalSilu | .getitem _ | .unsupported => .error .notImplemented

/-- The state with what a branch adds. -/
def Walk.apply (st : Walk κ) (e : Emission κ) : Walk κ where
  scales := st.scales.write e.scales
  recorded := st.recorded.write e.recorded
  ops := st.ops ++ e.ops
  skip := st.skip ++ e.skip

/-- The walk over the nodes that are left. -/
def walk [Mul κ] (c : Constants κ) (nodes : List (FxNode κ)) :
    List (FxNode κ) → Walk κ → Except WalkError (Walk κ)
  | [], st => .ok st
  | n :: rest, st =>
    if n.name ∈ st.skip then walk c nodes rest st
    else do
      let e ← emit c nodes st n rest
      walk c nodes rest (st.apply e)

/-- The state before the walk. -/
def Walk.initial (calibration : String → Option κ) (nodes : List (FxNode κ)) : Walk κ where
  scales
    | .node x => calibration x
    | _ => none
  recorded := fun _ => none
  ops := []
  skip := convBnConsumed nodes nodes

/-- The placeholders. -/
def inputNames (nodes : List (FxNode κ)) : List String :=
  nodes.filterMap fun n =>
    match n.kind with
    | .placeholder => some n.name
    | _ => none

/-- What the output returns. -/
def outputNames (nodes : List (FxNode κ)) : List String :=
  nodes.flatMap fun n =>
    match n.kind with
    | .output => n.args
    | _ => []

/-- The tensors that the simulator has after some ops. -/
def simulate (done : List Tensor) : List (IrOp κ) → Except WalkError (List Tensor)
  | [] => .ok done
  | o :: rest =>
    if ∀ t ∈ o.inputs, t ∈ done then simulate (done ++ o.outputs) rest else .error .keyError

/-- The IR, as far as scales go, and the table that they were read from. -/
structure Int8Ir (κ : Type) where
  ops : List (IrOp κ)
  recorded : Table κ
  scales : Table κ

/-- `extract_int8` -/
def extractInt8 [Mul κ] (c : Constants κ) (calibration : String → Option κ)
    (nodes : List (FxNode κ)) : Except WalkError (Int8Ir κ) := do
  let st ← walk c nodes nodes (Walk.initial calibration nodes)
  if inputNames nodes = [] ∨ outputNames nodes = [] then .error .runtimeError else do
    -- The golden output is simulated, and an op that reads what nothing wrote ends that.
    let done ← simulate ((inputNames nodes).map .node) st.ops
    if ∀ t ∈ outputNames nodes, .node t ∈ done then
      return { ops := st.ops, recorded := st.recorded, scales := st.scales }
    else .error .keyError

end

end ModelBlaster.Extract.Int8

/-! ## Absorbed nodes -/

/-! ## Consistent scales -/

namespace ModelBlaster.Extract.Int8

variable {κ : Type}

/-! ### The property -/

/-- The scales at which tensors are written, after an op. -/
def writeStep (w : Table κ) (o : QuantOp κ) : Table κ := fun t =>
  if t ∈ o.outputs then
    match o.quant.out with
    | some s => some s
    | none => o.inputs.head?.bind w
  else w t

/-- The scales at which tensors were written. -/
def written (w : Table κ) (parts : List (QuantOp κ)) : Table κ := parts.foldl writeStep w

/-- Every op reads a tensor at the scale at which it was written. -/
def ReadsConsistent (w : Table κ) : List (QuantOp κ) → Prop
  | [] => True
  | o :: rest =>
    (∀ p ∈ o.inputs.zip o.quant.reads, w p.1 = some p.2) ∧ ReadsConsistent (writeStep w o) rest

/-- What copies leaves the recorded scale as it is. -/
def CopiesConsistent (recorded : Table κ) (parts : List (QuantOp κ)) : Prop :=
  ∀ o ∈ parts, o.quant = .copy → ∀ x ∈ o.inputs, ∀ y ∈ o.outputs, recorded y = recorded x

/-- The ops of the IR with scales, in their order. -/
def allParts (ops : List (IrOp κ)) : List (QuantOp κ) := ops.flatMap IrOp.parts

/-- The scales at which the inputs of the graph are quantized. -/
def inputScales (calibration : String → Option κ) (nodes : List (FxNode κ)) : Table κ
  | .node x => if x ∈ inputNames nodes then calibration x else none
  | _ => none

/-- The scales of the ops and the recorded scales agree. -/
structure ScaleConsistent (calibration : String → Option κ) (nodes : List (FxNode κ))
    (ops : List (IrOp κ)) (recorded : Table κ) : Prop where
  reads : ReadsConsistent (inputScales calibration nodes) (allParts ops)
  copies : CopiesConsistent recorded (allParts ops)

instance ReadsConsistent.decidable [DecidableEq κ] :
    (w : Table κ) → (parts : List (QuantOp κ)) → Decidable (ReadsConsistent w parts)
  | _, [] => isTrue trivial
  | w, o :: rest =>
    have := ReadsConsistent.decidable (writeStep w o) rest
    inferInstanceAs (Decidable (_ ∧ _))

theorem readsConsistent_append {w : Table κ} {l l' : List (QuantOp κ)} :
    ReadsConsistent w (l ++ l') ↔ ReadsConsistent w l ∧ ReadsConsistent (written w l) l' := by
  induction l generalizing w with
  | nil => simp [ReadsConsistent, written]
  | cons o rest ih =>
    show _ ∧ ReadsConsistent (writeStep w o) (rest ++ l') ↔ _
    rw [ih, ← and_assoc]
    rfl

theorem written_append (w : Table κ) (l l' : List (QuantOp κ)) :
    written w (l ++ l') = written (written w l) l' :=
  List.foldl_append

theorem written_of_notMem {w : Table κ} {l : List (QuantOp κ)} {t : Tensor}
    (h : ∀ o ∈ l, t ∉ o.outputs) : written w l t = w t := by
  induction l generalizing w with
  | nil => rfl
  | cons o rest ih =>
    show written (writeStep w o) rest t = _
    rw [ih fun o' ho' => h o' (List.mem_cons_of_mem o ho'), writeStep,
      if_neg (h o List.mem_cons_self)]

/-! ### The scale of a node -/

/-- The kinds that copy or clamp. -/
def copies : FxKind κ → Bool
  | .relu | .relu6 | .maxPool2d | .avgPool2d | .dropout | .upsample | .flatten | .rankChange
  | .chunk | .getitem _ => true
  | _ => false

/-- The scale of a node, when those of its arguments are in a table. -/
def carriedAt (c : Constants κ) (calibration : String → Option κ) (n : FxNode κ)
    (env : String → Option κ) : Option κ :=
  if copies n.kind then n.args.head?.bind env
  else
    match n.kind with
    | .lstm _ _ => some c.unit
    | _ => calibration n.name

/-- The scales that the nodes should have. -/
def carried (c : Constants κ) (calibration : String → Option κ) (nodes : List (FxNode κ)) :
    String → Option κ :=
  nodes.foldl (fun env n => Function.update env n.name (carriedAt c calibration n env))
    fun _ => none

/-- A traced graph: the names are distinct, and a node comes behind its arguments. -/
structure Traced (nodes : List (FxNode κ)) : Prop where
  nodup : (nodes.map FxNode.name).Nodup
  args : ∀ pre n post, nodes = pre ++ n :: post → ∀ a ∈ n.args, a ∈ pre.map FxNode.name

theorem traced_iff {nodes : List (FxNode κ)} : Traced nodes ↔ (nodes.map FxNode.name).Nodup ∧
    ∀ i, (hi : i < nodes.length) → ∀ a ∈ nodes[i].args, a ∈ (nodes.take i).map FxNode.name := by
  constructor
  · intro h
    refine ⟨h.nodup, fun i hi => h.args (nodes.take i) nodes[i] (nodes.drop (i + 1)) ?_⟩
    rw [List.getElem_cons_drop, List.take_append_drop]
  · rintro ⟨hnodup, hargs⟩
    refine ⟨hnodup, ?_⟩
    rintro pre n post rfl a ha
    have hlt : pre.length < (pre ++ n :: post).length := by simp
    simpa using hargs pre.length hlt a (by simpa using ha)

instance (nodes : List (FxNode κ)) : Decidable (Traced nodes) := decidable_of_iff' _ traced_iff

/-- The relus that are absorbed without their scale. -/
def forgotten (nodes : List (FxNode κ)) (x : String) : Bool :=
  x ∈ fusedLinearRelu nodes ++ fusedConv2dRelu nodes ++ fusedBnRelu nodes ∧
    x ∉ convBnConsumed nodes nodes

/-- The scale at which a node is read. -/
def readScale (c : Constants κ) (calibration : String → Option κ) (nodes : List (FxNode κ))
    (x : String) : Option κ :=
  if forgotten nodes x then calibration x else carried c calibration nodes x

/-- The nodes whose scales an op reads, or whose scale it passes on. -/
def operands (n : FxNode κ) : List String :=
  match n.kind with
  | .add | .mul => n.args.take 2
  | .cat | .sdpa => n.args
  | .placeholder | .output | .getitem _ | .unsupported | .functionalSilu => []
  | _ => n.args.take 1

/-- The two halves of a chunk. -/
def chunkHalves (nodes : List (FxNode κ)) (n : FxNode κ) : List (FxNode κ) :=
  (getitems nodes n.name 0).getLast?.toList ++ (getitems nodes n.name 1).getLast?.toList

/-- The calibration gives a node the scales that it should have: the outputs of a relu on its own
and of a chunk have the scale of the input, and the inputs of the others their own. -/
def CalibratedAt (c : Constants κ) (calibration : String → Option κ) (nodes : List (FxNode κ))
    (n : FxNode κ) : Prop :=
  match n.kind with
  | .relu => n.name ∉ fusedReluAfter nodes → n.name ∉ convBnConsumed nodes nodes →
    ∀ x ∈ operands n, calibration n.name = carried c calibration nodes x
  | .chunk => ∀ x ∈ operands n, ∀ g ∈ chunkHalves nodes n,
    (calibration g.name).or (readScale c calibration nodes x) = carried c calibration nodes x
  | _ => ∀ x ∈ operands n,
    readScale c calibration nodes x = carried c calibration nodes x

/-- The calibration gives what copies the scale that it should have. -/
def Calibrated (c : Constants κ) (calibration : String → Option κ) (nodes : List (FxNode κ)) :
    Prop :=
  ∀ n ∈ nodes, CalibratedAt c calibration nodes n

open List

variable {nodes : List (FxNode κ)}

/-! ### Traced graphs -/

variable {l : List (FxNode κ)} {r : String}

theorem Traced.eq_of_name (h : Traced nodes) {m n : FxNode κ} (hm : m ∈ nodes) (hn : n ∈ nodes)
    (heq : m.name = n.name) : m = n :=
  inj_on_of_nodup_map h.nodup hm hn heq

theorem carried_of_notMem (c : Constants κ) (calibration : String → Option κ)
    {env : String → Option κ} {x : String} (h : x ∉ l.map FxNode.name) :
    l.foldl (fun (env : String → Option κ) (n : FxNode κ) =>
      Function.update env n.name (carriedAt c calibration n env)) env x = env x := by
  induction l generalizing env with
  | nil => rfl
  | cons n rest ih =>
    rw [map_cons, mem_cons, not_or] at h
    rw [foldl_cons, ih h.2, Function.update_of_ne h.1]

/-- The scale of a node follows from those of its arguments. -/
theorem carried_eq (h : Traced nodes) (c : Constants κ) (calibration : String → Option κ)
    {n : FxNode κ} (hn : n ∈ nodes) :
    carried c calibration nodes n.name =
      carriedAt c calibration n (carried c calibration nodes) := by
  obtain ⟨pre, post, hsplit⟩ := append_of_mem hn
  have hnd := h.nodup
  rw [hsplit, map_append, map_cons, nodup_append] at hnd
  have hpost : n.name ∉ post.map FxNode.name := (nodup_cons.mp hnd.2.1).1
  have hself : carried c calibration nodes n.name = carriedAt c calibration n
      (pre.foldl (fun (env : String → Option κ) (n : FxNode κ) =>
        Function.update env n.name (carriedAt c calibration n env)) fun _ => none) := by
    rw [carried, hsplit, foldl_append, foldl_cons,
      carried_of_notMem c calibration hpost, Function.update_self]
  have harg : ∀ a ∈ n.args, pre.foldl (fun (env : String → Option κ) (n : FxNode κ) =>
      Function.update env n.name (carriedAt c calibration n env)) (fun _ => none) a =
      carried c calibration nodes a := by
    intro a ha
    have hpre := h.args pre n post hsplit a ha
    have hlate : a ∉ (n :: post).map FxNode.name := fun hmem => hnd.2.2 a hpre a hmem rfl
    rw [carried, hsplit, foldl_append, carried_of_notMem c calibration hlate]
  rw [hself, carriedAt, carriedAt]
  split_ifs with hcopies
  · cases hargs : n.args with
    | nil => rfl
    | cons a rest => exact harg a (by rw [hargs]; exact mem_cons_self)
  · rfl

/-! ### Absorbed nodes -/

/-- Neighbours in a list. -/
theorem mem_zip_tail {α : Type} {l : List α} {p q : α} :
    (p, q) ∈ l.zip l.tail ↔ ∃ pre post, l = pre ++ p :: q :: post := by
  induction l with
  | nil => simp
  | cons m rest ih =>
    constructor
    · intro h
      cases rest with
      | nil => cases h
      | cons m' rest =>
        rcases mem_cons.mp h with heq | h
        · cases heq
          exact ⟨[], rest, rfl⟩
        · obtain ⟨pre, post, hsplit⟩ := ih.mp h
          exact ⟨m :: pre, post, congrArg (m :: ·) hsplit⟩
    · rintro ⟨pre, post, hsplit⟩
      cases pre with
      | nil =>
        cases hsplit
        exact mem_cons_self
      | cons m' pre =>
        rw [cons_append, List.cons.injEq] at hsplit
        have hmem := ih.mpr ⟨pre, post, hsplit.2⟩
        cases rest with
        | nil => cases hmem
        | cons m'' rest => exact mem_cons_of_mem _ hmem

/-- An absorbed relu stands right behind the node that it reads. -/
theorem mem_reluAfter {sel : FxKind κ → Bool} :
    r ∈ reluAfter sel nodes ↔ ∃ pre p q post, nodes = pre ++ p :: q :: post ∧
      isReluOf p q = true ∧ sel p.kind = true ∧ q.name = r := by
  constructor
  · intro h
    obtain ⟨⟨p, q⟩, hpq, hsome⟩ := mem_filterMap.mp h
    obtain ⟨pre, post, hsplit⟩ := mem_zip_tail.mp hpq
    split_ifs at hsome with hcond
    rw [Bool.and_eq_true] at hcond
    exact ⟨pre, p, q, post, hsplit, hcond.1, hcond.2, Option.some.inj hsome⟩
  · rintro ⟨pre, p, q, post, hsplit, hrelu, hsel, hname⟩
    refine mem_filterMap.mpr ⟨(p, q), mem_zip_tail.mpr ⟨pre, post, hsplit⟩, ?_⟩
    rw [hrelu, hsel, ← hname]
    rfl

theorem isReluOf_spec {p r : FxNode κ} (h : isReluOf p r = true) :
    r.kind = .relu ∧ r.args = [p.name] := by
  unfold isReluOf at h
  split at h
  · next hkind => exact ⟨hkind, (of_decide_eq_true h).2⟩
  · cases h

/-- The relus that are absorbed, by the node that they stand behind. -/
theorem mem_fusedReluAfter :
    r ∈ fusedReluAfter nodes ↔ r ∈ fusedLinearRelu nodes ∨ r ∈ fusedConv2dRelu nodes ∨
      r ∈ fusedAddRelu nodes ∨ r ∈ fusedBnRelu nodes := by
  simp only [fusedReluAfter, mem_append, or_assoc]

theorem exists_of_mem_fusedReluAfter (hr : r ∈ fusedReluAfter nodes) :
    ∃ pre p q post, nodes = pre ++ p :: q :: post ∧ isReluOf p q = true ∧ q.name = r := by
  rcases mem_fusedReluAfter.mp hr with hr | hr | hr | hr <;>
  · obtain ⟨pre, p, q, post, hsplit, hrelu, -, hname⟩ := mem_reluAfter.mp hr
    exact ⟨pre, p, q, post, hsplit, hrelu, hname⟩

/-- What a convolution absorbs: the batch norm behind it, and an activation behind that. -/
theorem convBnFusion_spec {conv bn : FxNode κ} {act : Option (FxNode κ)} {rest : List (FxNode κ)}
    (h : convBnFusion nodes conv rest = some (bn, act)) :
    (∃ w, conv.kind = .conv2d w) ∧ bn.kind = .batchNorm2d ∧ bn.args.head? = some conv.name ∧
      ∃ rest', rest = bn :: rest' ∧ ∀ a, act = some a →
        a ∈ rest' ∧ isActivation a.kind = true ∧ a.args = [bn.name] := by
  unfold convBnFusion at h
  split at h
  · next w bn' rest' hkind =>
    split at h
    · next hbn =>
      split_ifs at h with husers
      · split at h
        · next act' rest'' =>
          split_ifs at h with hact
          · cases h
            refine ⟨⟨w, hkind⟩, hbn, husers.2, _, rfl, fun a ha => ?_⟩
            cases ha
            exact ⟨mem_cons_self, hact.2.1, hact.2.2.2⟩
          · cases h
            exact ⟨⟨w, hkind⟩, hbn, husers.2, _, rfl, fun a ha => by cases ha⟩
        · cases h
          exact ⟨⟨w, hkind⟩, hbn, husers.2, _, rfl, fun a ha => by cases ha⟩
    · cases h
  · cases h

theorem mem_convBnConsumed {y : String} :
    y ∈ convBnConsumed nodes l ↔ ∃ pre conv rest, l = pre ++ conv :: rest ∧
      ∃ bn act, convBnFusion nodes conv rest = some (bn, act) ∧
        (y = bn.name ∨ ∃ a, act = some a ∧ y = a.name) := by
  induction l with
  | nil => simp [convBnConsumed]
  | cons conv rest ih =>
    rw [convBnConsumed, mem_append, ih]
    constructor
    · rintro (h | ⟨pre, conv', rest', rfl, h⟩)
      · cases hfusion : convBnFusion nodes conv rest with
        | none =>
          rw [hfusion] at h
          cases h
        | some p =>
          obtain ⟨bn, act⟩ := p
          rw [hfusion] at h
          refine ⟨[], conv, rest, rfl, bn, act, hfusion, ?_⟩
          rcases mem_cons.mp h with rfl | h
          · exact .inl rfl
          · cases act with
            | none => cases h
            | some a => exact .inr ⟨a, rfl, by simpa using h⟩
      · exact ⟨conv :: pre, conv', rest', rfl, h⟩
    · rintro ⟨pre, conv', rest', hsplit, bn, act, hfusion, hy⟩
      cases pre with
      | nil =>
        cases hsplit
        refine .inl ?_
        rw [hfusion]
        rcases hy with rfl | ⟨a, rfl, rfl⟩
        · exact mem_cons_self
        · simp
      | cons m pre =>
        cases hsplit
        exact .inr ⟨pre, conv', rest', rfl, bn, act, hfusion, hy⟩

/-! ### Owners -/

/-- The names of the nodes of some kinds. -/
def namesOf (sel : FxKind κ → Bool) (nodes : List (FxNode κ)) : List String :=
  (nodes.filter fun m => sel m.kind).map FxNode.name

/-- The first argument of a node. -/
def argOf (nodes : List (FxNode κ)) (y : String) : String :=
  ((nodes.find? fun m => m.name = y).bind fun m => m.args.head?).getD y

/-- A node that takes an element of a result. -/
def isGetitem : FxKind κ → Bool
  | .getitem _ => true
  | _ => false

/-- The node whose branch writes the entries of a node. -/
def owner (nodes : List (FxNode κ)) (y : String) : String :=
  if y ∈ convBnConsumed nodes nodes ∧ y ∈ namesOf isActivation nodes then
    argOf nodes (argOf nodes y)
  else if y ∈ convBnConsumed nodes nodes ++ fusedReluAfter nodes ++ namesOf isGetitem nodes then
    argOf nodes y
  else y

section
variable (h : Traced nodes)
include h

variable {m n q : FxNode κ} {sel : FxKind κ → Bool} {x : String} {pre post : List (FxNode κ)}

theorem Traced.mem_namesOf (hm : m ∈ nodes) :
    m.name ∈ namesOf sel nodes ↔ sel m.kind = true := by
  constructor
  · intro hmem
    obtain ⟨m', hm', hname⟩ := mem_map.mp hmem
    obtain ⟨hm', hsel⟩ := mem_filter.mp hm'
    rw [h.eq_of_name hm' hm hname] at hsel
    exact hsel
  · intro hsel
    exact mem_map_of_mem (mem_filter.mpr ⟨hm, hsel⟩)

theorem Traced.argOf_name (hm : m ∈ nodes) :
    argOf nodes m.name = m.args.head?.getD m.name := by
  cases hfind : nodes.find? fun m' => m'.name = m.name with
  | none =>
    have hnone := find?_eq_none.mp hfind m hm
    simp at hnone
  | some m' =>
    have hname : m'.name = m.name := by simpa using find?_some hfind
    rw [argOf, hfind, h.eq_of_name (mem_of_find?_eq_some hfind) hm hname]
    rfl

theorem Traced.argOf_eq (hm : m ∈ nodes) (hx : m.args.head? = some x) : argOf nodes m.name = x := by
  rw [h.argOf_name hm, hx]
  rfl

/-- The prefix before a node is unique. -/
theorem Traced.neighbour_eq {pre' post' : List (FxNode κ)} {p : FxNode κ}
    (hsplit : nodes = pre ++ n :: q :: post) (hsplit' : nodes = pre' ++ p :: q :: post') :
    p = n := by
  have hnd : nodes.Nodup := h.nodup.of_map
  rw [← singleton_append, ← append_assoc] at hsplit hsplit'
  have hnotin : ∀ {l l' : List (FxNode κ)}, nodes = l ++ q :: l' → q ∉ l ∧ q ∉ l' := by
    intro l l' heq
    rw [heq, nodup_append] at hnd
    exact ⟨fun hmem => hnd.2.2 q hmem q mem_cons_self rfl, (nodup_cons.mp hnd.2.1).1⟩
  have heq := (append_cons_inj_of_notMem (hnotin hsplit').1 (hnotin hsplit').2).mp
    (hsplit'.symm.trans hsplit)
  have hlast := append_inj_right' heq.1 rfl
  exact singleton_inj.mp hlast

theorem Traced.relu_of_neighbour (hsplit : nodes = pre ++ n :: q :: post)
    (hmem : q.name ∈ reluAfter sel nodes) : isReluOf n q = true ∧ sel n.kind = true := by
  obtain ⟨pre', p, q', post', hsplit', hrelu, hsel, hname⟩ := mem_reluAfter.mp hmem
  have hq : q' = q := h.eq_of_name (by simp [hsplit']) (by simp [hsplit]) hname
  subst hq
  have hp := h.neighbour_eq hsplit hsplit'
  subst hp
  exact ⟨hrelu, hsel⟩

section
variable (hm : m ∈ nodes)
include hm

theorem Traced.kind_of_fused (hr : m.name ∈ fusedReluAfter nodes) :
    m.kind = .relu := by
  obtain ⟨pre, p, q, post, hsplit, hrelu, hname⟩ := exists_of_mem_fusedReluAfter hr
  rw [← h.eq_of_name (by simp [hsplit]) hm hname]
  exact (isReluOf_spec hrelu).1

/-- A consumed node is the batch norm or the activation of a convolution. -/
theorem Traced.kind_of_consumed (hy : m.name ∈ convBnConsumed nodes nodes) :
    m.kind = .batchNorm2d ∨ isActivation m.kind = true := by
  obtain ⟨pre, conv, rest, hsplit, bn, act, hfusion, hy⟩ := mem_convBnConsumed.mp hy
  obtain ⟨-, hbn, -, rest', rfl, hact⟩ := convBnFusion_spec hfusion
  rcases hy with hy | ⟨a, ha, hy⟩
  · left
    rw [h.eq_of_name hm (by simp [hsplit]) hy]
    exact hbn
  · right
    rw [h.eq_of_name hm (by simp [hsplit, (hact a ha).1]) hy]
    exact (hact a ha).2.1

/-- A consumed activation reads a consumed batch norm. -/
theorem Traced.consumed_arg (hy : m.name ∈ convBnConsumed nodes nodes)
    (hact : isActivation m.kind = true) :
    ∃ bn ∈ nodes, bn.kind = .batchNorm2d ∧ m.args = [bn.name] ∧
      bn.name ∈ convBnConsumed nodes nodes := by
  obtain ⟨pre, conv, rest, hsplit, bn, act, hfusion, hy⟩ := mem_convBnConsumed.mp hy
  obtain ⟨-, hbn, -, rest', rfl, hspec⟩ := convBnFusion_spec hfusion
  have hbnmem : bn ∈ nodes := by simp [hsplit]
  rcases hy with hy | ⟨a, ha, hy⟩
  · rw [h.eq_of_name hm hbnmem hy, hbn] at hact
    cases hact
  · refine ⟨bn, hbnmem, hbn, ?_, ?_⟩
    · rw [h.eq_of_name hm (by simp [hsplit, (hspec a ha).1]) hy]
      exact (hspec a ha).2.2
    · exact mem_convBnConsumed.mpr ⟨pre, conv, _, hsplit, bn, act, hfusion, .inl rfl⟩

theorem Traced.owner_self (hcons : m.name ∉ convBnConsumed nodes nodes)
    (hfused : m.name ∉ fusedReluAfter nodes) (hget : isGetitem m.kind = false) :
    owner nodes m.name = m.name := by
  have hget' : m.name ∉ namesOf isGetitem nodes := by
    rw [h.mem_namesOf hm, hget]
    exact Bool.false_ne_true
  simp [owner, hcons, hfused, hget']

theorem Traced.owner_relu (hcons : m.name ∉ convBnConsumed nodes nodes)
    (hfused : m.name ∈ fusedReluAfter nodes) (hx : m.args = [x]) : owner nodes m.name = x := by
  rw [owner, if_neg (fun hc => hcons hc.1), if_pos (by simp [hfused])]
  exact h.argOf_eq hm (by rw [hx]; rfl)

theorem Traced.owner_getitem {i : ℕ} (hkind : m.kind = .getitem i) (hx : m.args = [x]) :
    owner nodes m.name = x := by
  have hget : m.name ∈ namesOf isGetitem nodes := by
    rw [h.mem_namesOf hm, hkind]
    rfl
  have hact : m.name ∉ namesOf isActivation nodes := by
    rw [h.mem_namesOf hm, hkind]
    exact Bool.false_ne_true
  rw [owner, if_neg (fun hc => hact hc.2), if_pos (by simp [hget])]
  exact h.argOf_eq hm (by rw [hx]; rfl)

end

/-- What a convolution absorbs belongs to it. -/
theorem Traced.owner_convBn {rest : List (FxNode κ)} {conv bn : FxNode κ} {act : Option (FxNode κ)}
    (hsplit : nodes = pre ++ conv :: rest) (hfusion : convBnFusion nodes conv rest = some (bn, act))
    :
    owner nodes bn.name = conv.name ∧ ∀ a, act = some a → owner nodes a.name = conv.name := by
  obtain ⟨-, hbn, hargs, rest', rfl, hspec⟩ := convBnFusion_spec hfusion
  have hbnmem : bn ∈ nodes := by simp [hsplit]
  have hcons : bn.name ∈ convBnConsumed nodes nodes :=
    mem_convBnConsumed.mpr ⟨pre, conv, _, hsplit, bn, act, hfusion, .inl rfl⟩
  have hnotact : bn.name ∉ namesOf isActivation nodes := by
    rw [h.mem_namesOf hbnmem, hbn]
    exact Bool.false_ne_true
  refine ⟨?_, fun a ha => ?_⟩
  · rw [owner, if_neg (fun hc => hnotact hc.2), if_pos (by simp [hcons])]
    exact h.argOf_eq hbnmem hargs
  · obtain ⟨hrest, hact, hreads⟩ := hspec a ha
    have hamem : a ∈ nodes := by simp [hsplit, hrest]
    have hacons : a.name ∈ convBnConsumed nodes nodes :=
      mem_convBnConsumed.mpr ⟨pre, conv, _, hsplit, bn, act, hfusion, .inr ⟨a, ha, rfl⟩⟩
    rw [owner, if_pos ⟨hacons, (h.mem_namesOf hamem).mpr hact⟩,
      h.argOf_eq hamem (by rw [hreads]; rfl)]
    exact h.argOf_eq hbnmem hargs

/-- What belongs to a node comes behind it. -/
theorem Traced.owner_mem (hsplit : nodes = pre ++ post) {y : String} (hy : y ∈ pre.map FxNode.name) :
    owner nodes y ∈ pre.map FxNode.name := by
  have harg : ∀ {y : String}, y ∈ pre.map FxNode.name → argOf nodes y ∈ pre.map FxNode.name := by
    intro y hy
    obtain ⟨m, hm, rfl⟩ := mem_map.mp hy
    have hmem : m ∈ nodes := by
      rw [hsplit]
      exact mem_append_left post hm
    obtain ⟨before, behind, hpre⟩ := append_of_mem hm
    cases hargs : m.args with
    | nil =>
      -- A node without arguments stands for itself.
      rw [h.argOf_name hmem, hargs]
      exact hy
    | cons a rest =>
      rw [h.argOf_eq hmem (by rw [hargs]; rfl)]
      have ha := h.args before m (behind ++ post) (by rw [hsplit, hpre]; simp) a
        (by rw [hargs]; exact mem_cons_self)
      rw [hpre, map_append]
      exact mem_append_left _ ha
  unfold owner
  split_ifs
  · exact harg (harg hy)
  · exact harg hy
  · exact hy

/-! ### Readers -/

theorem Traced.forgotten_eq_false (hm : m ∈ nodes) (hkind : m.kind ≠ .relu) :
    forgotten nodes m.name = false := by
  refine decide_eq_false fun hf => hkind (h.kind_of_fused hm (mem_fusedReluAfter.mpr ?_))
  simp only [mem_append] at hf
  tauto

end

end ModelBlaster.Extract.Int8

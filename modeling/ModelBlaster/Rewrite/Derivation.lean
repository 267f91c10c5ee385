import ModelBlaster.Library.PyDict
import ModelBlaster.Library.DepthFirst
import Mathlib

/-!
# Expressions of derived weights

`weight_derivations` computes weights by expressions over other weights. An expression is an object
of JSON, whose fields are checked before it is evaluated. What numpy computes is a parameter.

## Main definitions

* `Node`: an expression as it is written;
* `Op.ofFields`: an operation with its parameters, where they are as they should be;
* `checkNode`, `evalNode`: `_check_node` and `_eval`;
* `exprLeaves`: the keys that an expression reads;
* `WeightGraph`: a graph, as far as its weights go;
* `order`, `validate`, `replay`: the functions on tables;
* `Recorder`, `Call`: the recorder, and the calls of its methods;
* `Solution`: values for the keys of a table;
* `Recordable`: what `validate` asks of a record that a recorder writes.

## Main results

* `evalNode_congr`: a value depends on the weights that the expression reads, and no others;
* `replay_eq_solution`: a replay returns the solution;
* `replay_run_iff`: recorded weights are replayed iff they are recordable.
-/

namespace ModelBlaster.WeightDerivations

/-! ### Errors -/

/-- The `code` of a `DerivationError`. `uncaught` stands for the other exceptions. -/
inductive ErrorCode where
  | tooDeep
  | badNode
  | unknownOp
  | badArity
  | badParam
  | shape
  | dtype
  | cycle
  | unmapped
  | exists
  | badKey
  | shadowsBase
  | badRecord
  | dtypeContract
  | uncaught
  deriving DecidableEq, Repr

/-- A `DerivationError`: its code, and the place that its text names. -/
structure DerivationError where
  code : ErrorCode
  place : String
  deriving DecidableEq, Repr

/-! ### Expressions -/

/-- A number of JSON. -/
inductive Number (φ : Type) where
  | int (n : ℤ)
  | float (x : φ)

/-- A value of JSON, as far as parameters look into it. -/
inductive Value (φ : Type) where
  | num (x : Number φ)
  | bool (b : Bool)
  | str (s : String)
  | list (l : List (Value φ))
  | other

/-- The fields of an object, without `args`. -/
abbrev Fields (φ : Type) := PyDict String (Value φ)

/-- An expression as it is written. -/
inductive Node (φ : Type) where
  /-- Not an object. -/
  | value
  /-- An object without `args`. -/
  | bare (fields : Fields φ)
  /-- An object whose `args` are not a list. -/
  | badArgs (fields : Fields φ)
  | object (fields : Fields φ) (args : List (Node φ))

/-- An operation with its parameters. -/
inductive Op (φ : Type) where
  | pad (pads : List (ℤ × ℤ)) (value : Number φ)
  | stack (axis : ℤ)
  | concat (axis : ℤ)
  | transpose (perm : List ℤ)
  | reshape (shape : List ℤ)
  | slice (axis start stop : ℤ)
  | scale (factor : Number φ)
  | cast (dtype : String)
  | add
  | mul
  | const (shape : List ℤ) (value : Number φ) (dtype : String)

/-- `LOGICAL` -/
def logical : List String := ["f32", "f16", "bf16", "i64", "i32", "u8", "b8"]

/-- `_FLOATS` -/
def floats : List String := ["f32", "f16", "bf16"]

/-- What numpy, and the rounding of bit patterns to bf16, compute. `none` is an exception. -/
structure Numpy (α φ : Type) where
  /-- `0.0` -/
  zero : φ
  isfinite : φ → Bool
  /-- `a.dtype.kind` -/
  kind : α → Char
  itemsize : α → ℕ
  shape : α → List ℕ
  /-- `np.full` with `float64` -/
  full : List ℤ → Number φ → α
  /-- `np.pad` with a constant, in the dtype of its argument -/
  pad : α → List (ℤ × ℤ) → Number φ → Option α
  stack : List α → ℤ → Option α
  concatenate : List α → ℤ → Option α
  transpose : α → List ℤ → α
  reshape : α → List ℤ → Option α
  /-- `a[start:stop]` along an axis -/
  slice : α → ℤ → ℤ → ℤ → α
  /-- `a.astype`, by the name of the dtype -/
  astype : α → String → α
  /-- `a * np.float32(by)` -/
  scale : α → Number φ → α
  add : α → α → Option α
  mul : α → α → Option α
  /-- `round_bf16` -/
  roundBf16 : α → α

variable {α φ : Type} (np : Numpy α φ)

/-- `_num` -/
def finite : Value φ → Option (Number φ)
  | .num (.int n) => some (.int n)
  | .num (.float x) => if np.isfinite x then some (.float x) else none
  | _ => none

/-- `isint` -/
def int : Value φ → Option ℤ
  | .num (.int n) => some n
  | _ => none

/-- `ints` -/
def ints : Value φ → Option (List ℤ)
  | .list l => l.mapM int
  | _ => none

/-- A pair of numbers that are not negative. -/
def padPair (v : Value φ) : Option (ℤ × ℤ) :=
  match ints v with
  | some [lo, hi] => if 0 ≤ lo ∧ 0 ≤ hi then some (lo, hi) else none
  | _ => none

/-- A dtype that the language knows. -/
def dtypeOf : Value φ → Option String
  | .str s => if s ∈ logical then some s else none
  | _ => none

/-- `_ARITY`, for the ops that there are. -/
def arity (op : String) : Option (Option ℕ) :=
  if op ∈ ["stack", "concat"] then some none
  else if op ∈ ["pad", "transpose", "reshape", "slice", "scale", "cast"] then some (some 1)
  else if op ∈ ["add", "mul"] then some (some 2)
  else if op = "const" then some (some 0)
  else none

/-- An operation with its parameters, where they are as they should be. -/
def Op.ofFields (op : String) (fields : Fields φ) : Option (Op φ) :=
  match op with
  | "pad" => do
    let .list l ← fields.get? "pads" | none
    let pads ← l.mapM padPair
    let value ← finite np ((fields.get? "value").getD (.num (.float np.zero)))
    if pads = [] then none else some (.pad pads value)
  | "stack" => do
    let axis ← (fields.get? "axis").bind int
    some (.stack axis)
  | "concat" => do
    let axis ← (fields.get? "axis").bind int
    some (.concat axis)
  | "transpose" => do
    let perm ← (fields.get? "perm").bind ints
    some (.transpose perm)
  | "reshape" => do
    let shape ← (fields.get? "shape").bind ints
    if shape ≠ [] ∧ shape.count (-1) ≤ 1 ∧ ∀ x ∈ shape, x = -1 ∨ 0 < x then some (.reshape shape)
    else none
  | "slice" => do
    let axis ← (fields.get? "axis").bind int
    let start ← (fields.get? "start").bind int
    let stop ← (fields.get? "stop").bind int
    if 0 ≤ start ∧ start < stop then some (.slice axis start stop) else none
  | "scale" => do
    let factor ← (fields.get? "by").bind (finite np)
    some (.scale factor)
  | "cast" => do
    let dtype ← (fields.get? "dtype").bind dtypeOf
    some (.cast dtype)
  | "add" => some .add
  | "mul" => some .mul
  | "const" => do
    let shape ← (fields.get? "shape").bind ints
    let value ← (fields.get? "value").bind (finite np)
    let dtype ← (fields.get? "dtype").bind dtypeOf
    if shape ≠ [] ∧ ∀ x ∈ shape, 0 < x then some (.const shape value dtype) else none
  | _ => none

/-- `op`, where it is a string. -/
def opName (fields : Fields φ) : Option String :=
  match fields.get? "op" with
  | some (.str op) => some op
  | _ => none

/-! ### Checking -/

/-- The fields that an operation may have. -/
def knownFields : List String :=
  ["op", "args", "pads", "value", "axis", "perm", "shape", "start", "stop", "by", "dtype"]

/-- `_check_node` for one operation with `argc` arguments, or with `args` that are not a list. -/
def checkOp (fields : Fields φ) (argc : Option ℕ) (place : String) : Except DerivationError Unit :=
  match opName fields with
  | none => .error ⟨.unknownOp, place⟩
  | some op =>
    match arity op, argc with
    | none, _ => .error ⟨.unknownOp, place⟩
    | some _, none => .error ⟨.badNode, place⟩
    | some want, some argc =>
      if want.elim (argc == 0) (argc != ·) then .error ⟨.badArity, place⟩
      else if (Op.ofFields np op fields).isNone then .error ⟨.badParam, place⟩
      else if fields.keys.all (· ∈ knownFields) then .ok ()
      else .error ⟨.badParam, place⟩

/-- The key of a leaf. -/
def leafKey (fields : Fields φ) : Option String :=
  match fields.items with
  | [("w", .str k)] => some k
  | _ => none

mutual

/-- `_check_node` -/
def checkNode (place : String) (depth : ℕ) : Node φ → Except DerivationError Unit
  | .value => if 64 < depth then .error ⟨.tooDeep, place⟩ else .error ⟨.badNode, place⟩
  | .bare fields =>
    if 64 < depth then .error ⟨.tooDeep, place⟩
    else if "w" ∈ fields.keys then
      if (leafKey fields).isSome then .ok () else .error ⟨.badNode, place⟩
    else checkOp np fields (some 0) place
  | .badArgs fields =>
    if 64 < depth then .error ⟨.tooDeep, place⟩
    else if "w" ∈ fields.keys then .error ⟨.badNode, place⟩
    else checkOp np fields none place
  | .object fields args =>
    if 64 < depth then .error ⟨.tooDeep, place⟩
    else if "w" ∈ fields.keys then .error ⟨.badNode, place⟩
    else do
      checkOp np fields (some args.length) place
      checkArgs place (depth + 1) 0 args

/-- The arguments of a node, from the `i`-th on. -/
def checkArgs (place : String) (depth i : ℕ) : List (Node φ) → Except DerivationError Unit
  | [] => .ok ()
  | a :: rest => do
    checkNode (place ++ ".args[" ++ toString i ++ "]") depth a
    checkArgs place depth (i + 1) rest

end

/-! ### Evaluation -/

/-- `np_storage`, by the names of numpy's dtypes. -/
def storage (a : α) (dtype : String) : Except ErrorCode α :=
  if dtype = "bf16" then .ok (np.roundBf16 (np.astype a "float32"))
  else
    match ([("f32", "float32"), ("f16", "float16"), ("i64", "int64"), ("i32", "int32"),
      ("b8", "bool"), ("u8", "uint8")] : List (String × String)).lookup dtype with
    | some name => .ok (np.astype a name)
    | none => .error .uncaught

/-- An array, or the error that its failure is turned into. -/
def orError (code : ErrorCode) : Option α → Except ErrorCode α
  | some a => .ok a
  | none => .error code

/-- The position of a dimension that may be counted from the end. -/
def axisIndex (ndim : ℕ) (axis : ℤ) : Option ℕ :=
  if -(ndim : ℤ) ≤ axis ∧ axis < ndim then some ((if axis < 0 then axis + ndim else axis).toNat)
  else none

/-- The arguments of an arithmetic operation, in `float32`. -/
def floatArgs (vals : List (α × String)) : Except ErrorCode (List α) :=
  if ∀ v ∈ vals, v.2 ∈ floats then .ok (vals.map fun v => np.astype v.1 "float32")
  else .error .dtype

/-- `_eval`, from the values of the arguments on. -/
def Op.eval (op : Op φ) (vals : List (α × String)) : Except ErrorCode (α × String) :=
  match op, vals with
  | .const shape value dtype, _ => do
    let r ← storage np (np.full shape value) dtype
    return (r, dtype)
  | .pad pads value, (a, dt) :: _ =>
    if pads.length ≠ (np.shape a).length then .error .shape
    else do
      let r ← orError .uncaught (np.pad a pads value)
      return (r, dt)
  | .stack axis, (a, dt) :: rest =>
    if ∃ v ∈ rest, v.2 ≠ dt then .error .dtype
    else do
      let r ← orError .shape (np.stack (a :: rest.map Prod.fst) axis)
      return (r, dt)
  | .concat axis, (a, dt) :: rest =>
    if ∃ v ∈ rest, v.2 ≠ dt then .error .dtype
    else do
      let r ← orError .shape (np.concatenate (a :: rest.map Prod.fst) axis)
      return (r, dt)
  | .transpose perm, (a, dt) :: _ =>
    if perm.Perm ((List.range (np.shape a).length).map Nat.cast) then
      .ok (np.transpose a perm, dt)
    else .error .shape
  | .reshape shape, (a, dt) :: _ => do
    let r ← orError .shape (np.reshape a shape)
    return (r, dt)
  | .slice axis start stop, (a, dt) :: _ =>
    match (axisIndex (np.shape a).length axis).bind fun i => (np.shape a)[i]? with
    | none => .error .shape
    | some n => if (n : ℤ) < stop then .error .shape else .ok (np.slice a axis start stop, dt)
  | .scale factor, (a, dt) :: rest => do
    match ← floatArgs np ((a, dt) :: rest) with
    | x :: _ => do
      let r ← storage np (np.scale x factor) dt
      return (r, dt)
    | [] => .error .uncaught
  | .add, (a, dt) :: rest => do
    match ← floatArgs np ((a, dt) :: rest) with
    | x :: y :: _ => do
      let r ← orError .uncaught (np.add x y)
      let r ← storage np r dt
      return (r, dt)
    | _ => .error .uncaught
  | .mul, (a, dt) :: rest => do
    match ← floatArgs np ((a, dt) :: rest) with
    | x :: y :: _ => do
      let r ← orError .uncaught (np.mul x y)
      let r ← storage np r dt
      return (r, dt)
    | _ => .error .uncaught
  | .cast dtype, (a, _) :: _ => do
    let r ← storage np (if np.kind a = 'f' then np.astype a "float32" else a) dtype
    return (r, dtype)
  | _, [] => .error .uncaught

/-- The operation of an object on the values of its arguments. -/
def evalFields (fields : Fields φ) (vals : List (α × String)) : Except ErrorCode (α × String) :=
  match (opName fields).bind fun op => Op.ofFields np op fields with
  | some op => op.eval np vals
  | none => .error .uncaught

mutual

/-- `_eval`, on expressions that were checked. -/
def evalNode (resolve : String → Except ErrorCode (α × String)) :
    Node φ → Except ErrorCode (α × String)
  | .value => .error .uncaught
  | .bare fields =>
    match leafKey fields with
    | some k => resolve k
    | none => evalFields np fields []
  | .badArgs _ => .error .uncaught
  | .object fields args => do
    let vals ← evalArgs resolve args
    evalFields np fields vals

/-- The values of the arguments. -/
def evalArgs (resolve : String → Except ErrorCode (α × String)) :
    List (Node φ) → Except ErrorCode (List (α × String))
  | [] => .ok []
  | a :: rest => do
    let val ← evalNode resolve a
    let vals ← evalArgs resolve rest
    return val :: vals

end

mutual

/-- `expr_leaves`, on expressions that were checked. -/
def exprLeaves : Node φ → List String
  | .value => []
  | .bare fields => (leafKey fields).toList
  | .badArgs _ => []
  | .object _ args => argsLeaves args

/-- The keys that the arguments read. -/
def argsLeaves : List (Node φ) → List String
  | [] => []
  | a :: rest => exprLeaves a ++ argsLeaves rest

end

/-! ### Locality -/

mutual

variable {resolve' resolve : String → Except ErrorCode (α × String)} {k : String}

/-- A value depends on the weights that the expression reads, and no others. -/
theorem evalNode_congr (e : Node φ) (h : ∀ k ∈ exprLeaves e, resolve k = resolve' k) :
    evalNode np resolve e = evalNode np resolve' e := by
  cases e with
  | value => rfl
  | bare fields =>
    rw [evalNode, evalNode]
    cases hleaf : leafKey fields with
    | none => rfl
    | some k => exact h k (by simp [exprLeaves, hleaf])
  | badArgs fields => rfl
  | object fields args =>
    rw [evalNode, evalNode, evalArgs_congr args h]

theorem evalArgs_congr (args : List (Node φ)) (h : ∀ k ∈ argsLeaves args, resolve k = resolve' k) :
    evalArgs np resolve args = evalArgs np resolve' args := by
  cases args with
  | nil => rfl
  | cons a rest =>
    rw [argsLeaves] at h
    rw [evalArgs, evalArgs, evalNode_congr a fun k hk => h k (List.mem_append_left _ hk),
      evalArgs_congr rest fun k hk => h k (List.mem_append_right _ hk)]

end

mutual

/-- An expression with a value reads only weights that there are. -/
theorem exists_of_evalNode {e : Node φ} {v : α × String} (h : evalNode np resolve e = .ok v)
    (hk : k ∈ exprLeaves e) :
    ∃ w, resolve k = .ok w := by
  cases e with
  | value => cases hk
  | bare fields =>
    obtain hleaf : leafKey fields = some k := by simpa [exprLeaves] using hk
    rw [evalNode, hleaf] at h
    exact ⟨v, h⟩
  | badArgs fields => cases hk
  | object fields args =>
    obtain ⟨vals, hvals, -⟩ := Fallible.bind_eq_ok_iff.mp h
    exact exists_of_evalArgs hvals hk

theorem exists_of_evalArgs {args : List (Node φ)} {vals : List (α × String)}
    (h : evalArgs np resolve args = .ok vals) (hk : k ∈ argsLeaves args) :
    ∃ w, resolve k = .ok w := by
  cases args with
  | nil => cases hk
  | cons a rest =>
    obtain ⟨val, hval, h⟩ := Fallible.bind_eq_ok_iff.mp h
    obtain ⟨vals', hvals', -⟩ := Fallible.bind_eq_ok_iff.mp h
    rcases List.mem_append.mp hk with hk | hk
    · exact exists_of_evalNode hval hk
    · exact exists_of_evalArgs hvals' hk

end

end ModelBlaster.WeightDerivations

/-! ## Tables of derived weights -/

namespace ModelBlaster.WeightDerivations

/-- A record of the table. -/
structure Derivation (φ : Type) where
  dtype : String
  shape : Option (List ℤ)
  expr : Node φ

/-- A graph, as far as its weights go. -/
structure WeightGraph (φ : Type) where
  quant : Option String
  weightDtypes : Option (PyDict String String)
  /-- `weight_derivations` -/
  table : Option (PyDict String (Derivation φ))

variable {α φ : Type} (np : Numpy α φ)

/-- `derivations` -/
def WeightGraph.derivations (g : WeightGraph φ) : PyDict String (Derivation φ) :=
  g.table.getD PyDict.empty

/-- `is_mixed` -/
def WeightGraph.isMixed (g : WeightGraph φ) : Bool := g.quant = some "native"

/-! ### Dtypes -/

/-- `(graph.get("weight_dtypes") or {}).get(key)`, where it is not empty. -/
def WeightGraph.weightDtype (g : WeightGraph φ) (key : String) : Option String :=
  ((g.weightDtypes.getD PyDict.empty).get? key).filter (· ≠ "")

/-- The float dtype that a graph stores, when its tensors have no dtypes of their own. -/
def WeightGraph.floatDtype (g : WeightGraph φ) : String :=
  if g.quant = some "fp16" then "f16" else if g.quant = some "bf16" then "bf16" else "f32"

/-- `buffer_dtype` for a float array. -/
def bufferDtype (itemsize : ℕ) (bf16 : Bool) : String :=
  if bf16 then "bf16" else if itemsize = 2 then "f16" else "f32"

/-- `logical_dtype` -/
def logicalDtype (g : WeightGraph φ) (key : String) (a : α) : String :=
  match g.weightDtype key with
  | some d => d
  | none =>
    if np.kind a = 'b' then "b8"
    else if np.kind a ∈ ['i', 'u'] then
      (([(1, "u8"), (4, "i32"), (8, "i64")] : List (ℕ × String)).lookup
        (np.itemsize a)).getD "i32"
    else bufferDtype (np.itemsize a) (g.quant = some "bf16")

/-! ### Order -/

/-- The keys that a derived weight reads, sorted. -/
def leaves (d : PyDict String (Derivation φ)) (k : String) : List String :=
  match d.get? k with
  | some rec => (exprLeaves rec.expr).dedup.insertionSort (· ≤ ·)
  | none => []

/-- A leaf is visited if it is derived, and passed over if it is a base weight. -/
def follow (d : PyDict String (Derivation φ)) (base : List String) (k leaf : String) :
    Except DerivationError Bool :=
  if leaf ∈ d.keys then .ok true
  else if leaf ∈ base then .ok false
  else .error ⟨.unmapped, k⟩

/-- `order` -/
def order (g : WeightGraph φ) (base : List String) : Except DerivationError (List String) :=
  let d := g.derivations
  DepthFirst.sort (leaves d) (follow d base)
    (fun path => ⟨.cycle, " -> ".intercalate path⟩)
    (d.keys.insertionSort (· ≤ ·))

/-! ### Validation -/

/-- The dtype contract: a float weight is stored like every float weight of the graph. -/
def dtypeContract (g : WeightGraph φ) (k dtype : String) : List DerivationError :=
  if dtype ∈ floats then
    if g.isMixed then
      if (g.weightDtypes.getD PyDict.empty).get? k = some dtype then [] else [⟨.dtypeContract, k⟩]
    else if dtype = g.floatDtype then [] else [⟨.dtypeContract, k⟩]
  else []

/-- What `validate` finds wrong with a record. -/
def recordErrors (g : WeightGraph φ) (base : List String) (k : String) (rec : Derivation φ) :
    List DerivationError :=
  (if "d.".toList.isPrefixOf k.toList then [] else [⟨.badKey, k⟩]) ++
  (if k ∈ base then [⟨.shadowsBase, k⟩] else []) ++
  if rec.dtype ∉ logical then [⟨.badRecord, k⟩]
  else
    match checkNode np k 0 rec.expr with
    | .error e => [e]
    | .ok _ =>
      (if ∀ x ∈ rec.shape.getD [], 0 < x then [] else [⟨.badRecord, k⟩]) ++
      dtypeContract g k rec.dtype

/-- `validate` -/
def validate (g : WeightGraph φ) (base : List String) : List DerivationError :=
  (g.derivations.items.insertionSort fun a b => a.1 ≤ b.1).flatMap
    (fun item => recordErrors np g base item.1 item.2) ++
  match order g base with
  | .error e => [e]
  | .ok _ => []

/-! ### Replay -/

/-- `base_graph if base_graph is not None else graph` -/
def baseOf (baseGraph : Option (WeightGraph φ)) (g : WeightGraph φ) : WeightGraph φ :=
  baseGraph.getD g

/-- `resolve`, in `replay`. -/
def resolveDone (baseWeights : PyDict String α) (bg : WeightGraph φ)
    (done : PyDict String (α × String)) (k : String) : Except ErrorCode (α × String) :=
  match done.get? k with
  | some v => .ok v
  | none =>
    match baseWeights.get? k with
    | some a => .ok (a, logicalDtype np bg k a)
    | none => .error .unmapped

/-- A derived weight is computed, and compared with its record. -/
def replayStep (d : PyDict String (Derivation φ)) (baseWeights : PyDict String α)
    (bg : WeightGraph φ) (done : PyDict String (α × String)) (k : String) :
    Except DerivationError (PyDict String (α × String)) :=
  match d.get? k with
  | none => .error ⟨.uncaught, k⟩
  | some rec =>
    match evalNode np (resolveDone np baseWeights bg done) rec.expr with
    | .error code => .error ⟨code, k⟩
    | .ok v =>
      if v.2 ≠ rec.dtype then .error ⟨.dtype, k⟩
      else if rec.shape.getD ((np.shape v.1).map Nat.cast) ≠ (np.shape v.1).map Nat.cast then
        .error ⟨.shape, k⟩
      else .ok (done.set k v)

/-- `replay`, of the whole table. -/
def replay (g : WeightGraph φ) (baseWeights : PyDict String α)
    (baseGraph : Option (WeightGraph φ)) : Except DerivationError (PyDict String α) :=
  if g.derivations.items.isEmpty then .ok PyDict.empty
  else
    match validate np g baseWeights.keys with
    | e :: _ => .error e
    | [] => do
      let keys ← order g baseWeights.keys
      let done ← keys.foldlM
        (replayStep np g.derivations baseWeights (baseOf baseGraph g)) PyDict.empty
      return done.mapItems fun _ v => v.1

/-! ### Recording -/

/-- A `Recorder`: the graph that it writes to, and the arrays that it has computed. -/
structure Recorder (α φ : Type) where
  graph : WeightGraph φ
  arrays : PyDict String α

/-- `resolve`, in `_put`. -/
def Recorder.resolve (baseWeights : PyDict String α) (baseGraph : Option (WeightGraph φ))
    (rec : Recorder α φ) (k : String) : Except ErrorCode (α × String) :=
  match rec.arrays.get? k with
  | some a =>
    match rec.graph.derivations.get? k with
    | some record => .ok (a, record.dtype)
    | none => .error .uncaught
  | none =>
    match baseWeights.get? k with
    | some a => .ok (a, logicalDtype np (baseOf baseGraph rec.graph) k a)
    | none => .error .unmapped

/-- `declare` -/
def WeightGraph.declare (g : WeightGraph φ) (key dtype : String) : WeightGraph φ :=
  if g.isMixed ∧ dtype ∈ floats then
    { g with weightDtypes := some ((g.weightDtypes.getD PyDict.empty).set key dtype) }
  else g

/-- `_put` -/
def Recorder.put (baseWeights : PyDict String α) (baseGraph : Option (WeightGraph φ))
    (rec : Recorder α φ) (new : String) (expr : Node φ) :
    Except DerivationError (Recorder α φ) :=
  let d := rec.graph.derivations
  if new ∈ d.keys ∨ new ∈ baseWeights.keys then .error ⟨.exists, new⟩
  else if ¬"d.".toList.isPrefixOf new.toList then .error ⟨.badKey, new⟩
  else do
    checkNode np new 0 expr
    match evalNode np (rec.resolve np baseWeights baseGraph) expr with
    | .error code => .error ⟨code, new⟩
    | .ok (a, dtype) =>
      let record := { dtype, shape := some ((np.shape a).map Nat.cast), expr }
      let graph := { rec.graph with table := some (d.set new record) }
      return { graph := graph.declare new dtype, arrays := rec.arrays.set new a }

/-- An argument of a method: a key, or a node. -/
inductive Arg (φ : Type) where
  | key (k : String)
  | node (e : Node φ)

/-- `_arg` -/
def Arg.expr : Arg φ → Node φ
  | .key k => .bare (.ofList [("w", .str k)])
  | .node e => e

/-- A call of a method. -/
inductive Call (φ : Type) where
  | pad (new : String) (k : Arg φ) (pads : List (List ℤ)) (value : Value φ)
  | stack (new : String) (keys : List (Arg φ)) (axis : ℤ)
  | concat (new : String) (keys : List (Arg φ)) (axis : ℤ)
  | transpose (new : String) (k : Arg φ) (perm : List ℤ)
  | reshape (new : String) (k : Arg φ) (shape : List ℤ)
  | slice (new : String) (k : Arg φ) (axis start stop : ℤ)
  | scale (new : String) (k : Arg φ) (factor : φ)
  | cast (new : String) (k : Arg φ) (dtype : Value φ)
  | add (new : String) (a b : Arg φ)
  | mul (new : String) (a b : Arg φ)
  | const (new : String) (shape : List ℤ) (value dtype : Value φ)

/-- An integer in JSON. -/
def ofInt (n : ℤ) : Value φ := .num (.int n)

/-- A list of integers in JSON. -/
def ofInts (l : List ℤ) : Value φ := .list (l.map ofInt)

/-- An object with an `op` and `args`. -/
def opNode (op : String) (fields : List (String × Value φ)) (args : List (Arg φ)) : Node φ :=
  .object (.ofList (("op", .str op) :: fields)) (args.map Arg.expr)

/-- The key that a call records, and its expression. -/
def Call.expr : Call φ → String × Node φ
  | .pad new k pads value =>
    (new, opNode "pad" [("pads", .list (pads.map ofInts)), ("value", value)] [k])
  | .stack new keys axis => (new, opNode "stack" [("axis", ofInt axis)] keys)
  | .concat new keys axis => (new, opNode "concat" [("axis", ofInt axis)] keys)
  | .transpose new k perm => (new, opNode "transpose" [("perm", ofInts perm)] [k])
  | .reshape new k shape => (new, opNode "reshape" [("shape", ofInts shape)] [k])
  | .slice new k axis start stop =>
    (new, opNode "slice" [("axis", ofInt axis), ("start", ofInt start), ("stop", ofInt stop)] [k])
  | .scale new k factor => (new, opNode "scale" [("by", .num (.float factor))] [k])
  | .cast new k dtype => (new, opNode "cast" [("dtype", dtype)] [k])
  | .add new a b => (new, opNode "add" [] [a, b])
  | .mul new a b => (new, opNode "mul" [] [a, b])
  | .const new shape value dtype =>
    (new, .bare (.ofList [("op", .str "const"), ("shape", ofInts shape), ("value", value),
      ("dtype", dtype)]))

/-- A sequence of calls. -/
def Recorder.run (baseWeights : PyDict String α) (baseGraph : Option (WeightGraph φ))
    (rec : Recorder α φ) (calls : List (Call φ)) : Except DerivationError (Recorder α φ) :=
  calls.foldlM (fun rec call =>
    rec.put np baseWeights baseGraph call.expr.1 call.expr.2) rec

/-! ## Replay of recorded weights -/

open List Fallible PyDict

/-! ### Order -/

variable {k c : String}

theorem mem_leaves {d : PyDict String (Derivation φ)} :
    c ∈ leaves d k ↔ ∃ rec, d.get? k = some rec ∧ c ∈ exprLeaves rec.expr := by
  rw [leaves]
  cases d.get? k with
  | none => simp
  | some rec => simp [mem_insertionSort, mem_dedup]

variable {base : List String}

theorem follow_eq_true_iff {d : PyDict String (Derivation φ)} :
    follow d base k c = .ok true ↔ c ∈ d.keys := by
  rw [follow]
  split_ifs with hd hb <;> simp [hd]

theorem follow_eq_false_iff {d : PyDict String (Derivation φ)} :
    follow d base k c = .ok false ↔ c ∉ d.keys ∧ c ∈ base := by
  rw [follow]
  by_cases hd : c ∈ d.keys <;> by_cases hb : c ∈ base <;> simp [hd, hb]

theorem perm_keys (d : PyDict String (Derivation φ)) :
    (d.keys.insertionSort (· ≤ ·)).Perm d.keys :=
  perm_insertionSort _ _

/-- An order of the keys of a table: each stands behind the derived keys that it reads, and the
others that it reads are base weights. -/
def InOrder (d : PyDict String (Derivation φ)) (base keys : List String) : Prop :=
  DepthFirst.Ordered (leaves d) (follow d base) keys ∧ keys.Perm d.keys

variable {g : WeightGraph φ} {keys : List String}

theorem inOrder_of_order (h : order g base = .ok keys) : InOrder g.derivations base keys := by
  refine ⟨(DepthFirst.sort_ordered h).1, (DepthFirst.sort_perm ?_ ?_ h).trans (perm_keys _)⟩
  · exact (perm_keys _).nodup_iff.mpr g.derivations.keys_nodup
  · intro k c _ _ hfollow
    exact (perm_keys _).mem_iff.mpr (follow_eq_true_iff.mp hfollow)

theorem exists_order (h : InOrder g.derivations base keys) : ∃ out, order g base = .ok out :=
  DepthFirst.exists_sort h.1 (h.2.trans (perm_keys _).symm)

/-! ### Solutions -/

/-- A value that fits a record. -/
structure Matches (rec : Derivation φ) (v : α × String) : Prop where
  dtype : v.2 = rec.dtype
  shape : rec.shape.getD ((np.shape v.1).map Nat.cast) = (np.shape v.1).map Nat.cast

variable {done : PyDict String (α × String)} {done' ref : PyDict String (α × String)}

theorem replayStep_eq_ok_iff {d : PyDict String (Derivation φ)} {baseWeights : PyDict String α}
    {bg : WeightGraph φ} :
    replayStep np d baseWeights bg done k = .ok done' ↔
      ∃ rec v, d.get? k = some rec ∧
        evalNode np (resolveDone np baseWeights bg done) rec.expr = .ok v ∧
        Matches np rec v ∧ done' = done.set k v := by
  rw [replayStep]
  cases d.get? k with
  | none => simp
  | some rec =>
    cases heval : evalNode np (resolveDone np baseWeights bg done) rec.expr with
    | error code => simp [heval]
    | ok v =>
      simp only [heval]
      constructor
      · intro h
        split_ifs at h with hdtype hshape
        injection h with h
        exact ⟨rec, v, rfl, heval, ⟨not_not.mp hdtype, not_not.mp hshape⟩, h.symm⟩
      · rintro ⟨rec', v', hrec, heval', hmatches, rfl⟩
        cases hrec
        rw [heval] at heval'
        cases heval'
        rw [if_neg (not_not.mpr hmatches.dtype), if_neg (not_not.mpr hmatches.shape)]

/-- Values for the keys of a table, each the value of its expression under the others. -/
structure Solution (d : PyDict String (Derivation φ)) (baseWeights : PyDict String α)
    (bg : WeightGraph φ) (ref : PyDict String (α × String)) : Prop where
  mem : ∀ k, k ∈ ref.keys ↔ k ∈ d.keys
  value : ∀ k rec, d.get? k = some rec → ∃ v, ref.get? k = some v ∧ Matches np rec v ∧
    evalNode np (resolveDone np baseWeights bg ref) rec.expr = .ok v

variable {np} {d : PyDict String (Derivation φ)} {baseWeights : PyDict String α}
  {bg : WeightGraph φ}

variable {rec : Derivation φ}

/-- The value of a record does not change when the keys that it reads keep theirs. -/
theorem eval_congr {pre : List String} (hrec : d.get? k = some rec)
    (hdone : DepthFirst.Done (leaves d) (follow d base) pre k)
    (hread : ∀ c ∈ pre, done.get? c = done'.get? c)
    (hbase : ∀ c ∉ d.keys, done.get? c = done'.get? c) :
    evalNode np (resolveDone np baseWeights bg done) rec.expr =
      evalNode np (resolveDone np baseWeights bg done') rec.expr := by
  apply evalNode_congr
  intro c hc
  have hget : done.get? c = done'.get? c := by
    rcases hdone c (mem_leaves.mpr ⟨rec, hrec, hc⟩) with hno | ⟨-, hmem⟩
    · exact hbase c (follow_eq_false_iff.mp hno).1
    · exact hread c hmem
  rw [resolveDone, resolveDone, hget]

/-- In an order of its keys, a table is computed to its solution. -/
theorem foldlM_replayStep (hsol : Solution np d baseWeights bg ref) (horder : InOrder d base keys) :
    ∃ done, keys.foldlM (replayStep np d baseWeights bg) PyDict.empty = .ok done ∧
      ∀ k, done.get? k = ref.get? k := by
  have hrun := exists_foldlM_eq_ok (f := replayStep np d baseWeights bg) (l := keys)
    (P := fun pre done => ∀ k, done.get? k = if k ∈ pre then ref.get? k else none)
    ?_ (b := PyDict.empty) (fun k => by simp)
  · obtain ⟨done, hrun, hdone⟩ := hrun
    refine ⟨done, hrun, fun k => ?_⟩
    rw [hdone]
    by_cases hk : k ∈ keys
    · rw [if_pos hk]
    · have hkey : k ∉ ref.keys := fun h => hk (horder.2.mem_iff.mpr ((hsol.mem k).mp h))
      rw [if_neg hk, get?_eq_none_iff.mpr hkey]
  · intro pre k post done hsplit hinv
    have hk : k ∈ d.keys := horder.2.mem_iff.mp (hsplit ▸ by simp)
    obtain ⟨rec, hrec⟩ := mem_keys_iff.mp hk
    obtain ⟨v, hv, hmatches, heval⟩ := hsol.value k rec hrec
    -- What the expression reads was computed before it, or is a base weight.
    have hcongr : evalNode np (resolveDone np baseWeights bg done) rec.expr =
        evalNode np (resolveDone np baseWeights bg ref) rec.expr := by
      apply eval_congr hrec (horder.1.done_before hsplit.symm)
      · intro c hc
        rw [hinv, if_pos hc]
      · intro c hc
        have hno := get?_eq_none_iff.mpr (fun h => hc ((hsol.mem c).mp h))
        rw [hinv, hno, ite_self]
    refine ⟨done.set k v, (replayStep_eq_ok_iff np).mpr
      ⟨rec, v, hrec, hcongr.trans heval, hmatches, rfl⟩, fun c => ?_⟩
    rw [get?_set, hinv]
    by_cases hc : c = k
    · subst hc
      simp [hv]
    · simp [hc]

/-- What a table is computed to solves it. -/
theorem solution_of_foldlM (horder : InOrder d base keys)
    (h : keys.foldlM (replayStep np d baseWeights bg) PyDict.empty = .ok done) :
    Solution np d baseWeights bg done := by
  have hinv := foldlM_induction (P := fun pre done =>
    pre <+: keys → (∀ k, k ∈ done.keys ↔ k ∈ pre) ∧ ∀ k ∈ pre, ∃ rec v, d.get? k = some rec ∧
      done.get? k = some v ∧ Matches np rec v ∧
      evalNode np (resolveDone np baseWeights bg done) rec.expr = .ok v) ?_
    (fun _ => ⟨fun k => by simp [PyDict.keys, PyDict.empty], by simp⟩) h
  · obtain ⟨hkeys, hvalue⟩ := hinv (prefix_refl keys)
    refine ⟨fun k => (hkeys k).trans horder.2.mem_iff, fun k rec hrec => ?_⟩
    have hk : k ∈ keys := horder.2.mem_iff.mpr (mem_keys_of_get? hrec)
    obtain ⟨rec', v, hrec', hv, hmatches, heval⟩ := hvalue k hk
    rw [hrec] at hrec'
    cases hrec'
    exact ⟨v, hv, hmatches, heval⟩
  · intro pre k done₁ done₂ hinv hstep hstart
    obtain ⟨hkeys, hvalue⟩ := hinv ((prefix_append pre [k]).trans hstart)
    obtain ⟨rec, v, hrec, heval, hmatches, rfl⟩ := (replayStep_eq_ok_iff np).mp hstep
    obtain ⟨post, hpost⟩ := hstart
    have hsplit : keys = pre ++ k :: post := by rw [← hpost]; simp
    have hnew : k ∉ pre := by
      have hnd := horder.1.nodup
      rw [hsplit, nodup_append] at hnd
      exact fun hk => hnd.2.2 k hk k (by simp) rfl
    have hkd : k ∈ d.keys := mem_keys_of_get? hrec
    -- The write of `k` changes nothing that was read so far.
    have hcongr : ∀ k' rec', d.get? k' = some rec' →
        DepthFirst.Done (leaves d) (follow d base) pre k' →
        evalNode np (resolveDone np baseWeights bg (done₁.set k v)) rec'.expr =
          evalNode np (resolveDone np baseWeights bg done₁) rec'.expr := by
      intro k' rec' hrec' hdone
      refine eval_congr hrec' hdone (fun c hc => ?_) (fun c hc => ?_)
      · exact get?_set_of_ne _ _ fun heq => hnew (heq ▸ hc)
      · exact get?_set_of_ne _ _ fun heq => hc (heq ▸ hkd)
    refine ⟨fun k' => ?_, fun k' hk' => ?_⟩
    · rw [mem_keys_set, hkeys]
      simp [or_comm]
    · rcases mem_append.mp hk' with hk' | hk'
      · obtain ⟨rec', v', hrec', hv', hmatches', heval'⟩ := hvalue k' hk'
        have hne : k' ≠ k := fun heq => hnew (heq ▸ hk')
        obtain ⟨pre', post', hpre⟩ := append_of_mem hk'
        have hsplit' : keys = pre' ++ k' :: (post' ++ k :: post) := by
          rw [hsplit, hpre]
          simp
        have hdone : DepthFirst.Done (leaves d) (follow d base) pre k' :=
          (horder.1.done_before hsplit').mono (hpre ▸ subset_append_left _ _)
        exact ⟨rec', v', hrec', by rw [get?_set_of_ne _ _ hne, hv'], hmatches',
          (hcongr k' rec' hrec' hdone).trans heval'⟩
      · obtain rfl := mem_singleton.mp hk'
        exact ⟨rec, v, hrec, get?_set_self _ _ _, hmatches,
          (hcongr k' rec hrec (horder.1.done_before hsplit)).trans heval⟩

/-! ### Replay -/

theorem validate_eq_nil_iff :
    validate np g base = [] ↔
      (∀ k rec, g.derivations.get? k = some rec → recordErrors np g base k rec = []) ∧
        ∃ keys, order g base = .ok keys := by
  rw [validate, append_eq_nil_iff, flatMap_eq_nil_iff]
  refine and_congr ⟨fun h k rec hrec => ?_, fun h item hitem => ?_⟩ ?_
  · exact h (k, rec) ((perm_insertionSort _ _).mem_iff.mpr (mem_items_iff.mpr hrec))
  · exact h item.1 item.2 (mem_items_iff.mp ((perm_insertionSort _ _).mem_iff.mp hitem))
  · cases order g base with
    | error e => simp
    | ok keys => simp

theorem derivations_of_isEmpty (h : g.derivations.items.isEmpty = true) (k : String) :
    g.derivations.get? k = none := by
  rw [PyDict.get?, List.isEmpty_iff.mp h]
  rfl

variable {baseGraph : Option (WeightGraph φ)}

/-- A graph whose table is replayed is valid, and its table has a solution. -/
theorem solution_of_replay {res : PyDict String α} (h : replay np g baseWeights baseGraph = .ok res)
    :
    validate np g baseWeights.keys = [] ∧
      ∃ ref, Solution np g.derivations baseWeights (baseOf baseGraph g) ref := by
  rw [replay] at h
  split_ifs at h with hempty
  · have hnone := derivations_of_isEmpty hempty
    have hnil : InOrder g.derivations baseWeights.keys [] := by
      refine ⟨.nil, ?_⟩
      rw [PyDict.keys, List.isEmpty_iff.mp hempty]
      exact List.Perm.refl _
    refine ⟨validate_eq_nil_iff.mpr ⟨fun k rec hrec => ?_, exists_order hnil⟩,
      PyDict.empty, fun k => ?_, fun k rec hrec => ?_⟩
    · rw [hnone] at hrec
      cases hrec
    · rw [mem_keys_iff, mem_keys_iff, hnone k]
      simp
    · rw [hnone] at hrec
      cases hrec
  · cases hvalid : validate np g baseWeights.keys with
    | cons e rest =>
      rw [hvalid] at h
      cases h
    | nil =>
      rw [hvalid] at h
      obtain ⟨keys, hkeys, h⟩ := bind_eq_ok_iff.mp h
      obtain ⟨done, hdone, -⟩ := bind_eq_ok_iff.mp h
      exact ⟨rfl, done, solution_of_foldlM (inOrder_of_order hkeys) hdone⟩

/-- The replay of a valid table returns the values of its solution. -/
theorem replay_eq_solution (hvalid : validate np g baseWeights.keys = [])
    (hsol : Solution np g.derivations baseWeights (baseOf baseGraph g) ref) :
    ∃ res, replay np g baseWeights baseGraph = .ok res ∧
      ∀ k, res.get? k = (ref.get? k).map Prod.fst := by
  rw [replay]
  split_ifs with hempty
  · refine ⟨PyDict.empty, rfl, fun k => ?_⟩
    have hkey : k ∉ ref.keys := by
      rw [hsol.mem, mem_keys_iff, derivations_of_isEmpty hempty k]
      simp
    rw [get?_eq_none_iff.mpr hkey]
    rfl
  · obtain ⟨keys, hkeys⟩ := (validate_eq_nil_iff.mp hvalid).2
    obtain ⟨done, hrun, hdone⟩ := foldlM_replayStep hsol (inOrder_of_order hkeys)
    refine ⟨done.mapItems fun _ v => v.1, ?_, fun k => ?_⟩
    · rw [hvalid]
      exact bind_eq_ok_iff.mpr ⟨keys, hkeys, bind_eq_ok_iff.mpr ⟨done, hrun, rfl⟩⟩
    · rw [get?_mapItems, hdone]

/-! ### Recording -/

/-- What `validate` asks of a record that a recorder writes. -/
structure Recordable (g : WeightGraph φ) (rec : Derivation φ) : Prop where
  dtype : rec.dtype ∈ logical
  shape : ∀ x ∈ rec.shape.getD [], 0 < x
  /-- A float weight has the dtype of the float weights of the graph. -/
  float : rec.dtype ∈ floats → g.isMixed = false → rec.dtype = g.floatDtype

theorem declare_quant (g : WeightGraph φ) (key dtype : String) :
    (g.declare key dtype).quant = g.quant := by
  rw [WeightGraph.declare]
  split_ifs <;> rfl

theorem declare_derivations (g : WeightGraph φ) (key dtype : String) :
    (g.declare key dtype).derivations = g.derivations := by
  rw [WeightGraph.declare]
  split_ifs <;> rfl

theorem get?_declare_of_ne (g : WeightGraph φ) {key : String} (dtype : String) (h : k ≠ key) :
    ((g.declare key dtype).weightDtypes.getD PyDict.empty).get? k =
      (g.weightDtypes.getD PyDict.empty).get? k := by
  rw [WeightGraph.declare]
  split_ifs
  · exact get?_set_of_ne _ _ h
  · rfl

variable {g' : WeightGraph φ}

section
variable (hquant : g'.quant = g.quant)
  (hget : (g'.weightDtypes.getD PyDict.empty).get? k = (g.weightDtypes.getD PyDict.empty).get? k)
include hquant hget

/-- A key that is not declared keeps its dtype. -/
theorem logicalDtype_congr (a : α) :
    logicalDtype np g' k a = logicalDtype np g k a := by
  rw [logicalDtype, logicalDtype, WeightGraph.weightDtype, WeightGraph.weightDtype, hget, hquant]

theorem dtypeContract_congr (dtype : String) :
    dtypeContract g' k dtype = dtypeContract g k dtype := by
  rw [dtypeContract, dtypeContract, WeightGraph.isMixed, WeightGraph.isMixed,
    WeightGraph.floatDtype, WeightGraph.floatDtype, hget, hquant]

end

theorem recordErrors_congr (h : dtypeContract g' k rec.dtype = dtypeContract g k rec.dtype) :
    recordErrors np g' base k rec = recordErrors np g base k rec := by
  rw [recordErrors, h]
  rfl

/-- A record that was declared meets the contract iff it has the float dtype of a graph with one. -/
theorem dtypeContract_declare (g : WeightGraph φ) (key dtype : String) :
    dtypeContract (g.declare key dtype) key dtype = [] ↔
      (dtype ∈ floats → g.isMixed = false → dtype = g.floatDtype) := by
  have hmixed : (g.declare key dtype).isMixed = g.isMixed := by
    rw [WeightGraph.isMixed, WeightGraph.isMixed, declare_quant]
  have hfloat : (g.declare key dtype).floatDtype = g.floatDtype := by
    rw [WeightGraph.floatDtype, WeightGraph.floatDtype, declare_quant]
  rw [dtypeContract, hmixed, hfloat]
  by_cases hf : dtype ∈ floats
  · cases hm : g.isMixed with
    | false => simp [hf]
    | true =>
      have hget : ((g.declare key dtype).weightDtypes.getD PyDict.empty).get? key = some dtype := by
        rw [WeightGraph.declare, if_pos ⟨hm, hf⟩]
        exact get?_set_self _ _ _
      simp [hf, hget]
  · simp [hf]

theorem recordable_congr (hquant : g'.quant = g.quant) : Recordable g' rec ↔ Recordable g rec := by
  have hmixed : g'.isMixed = g.isMixed := by rw [WeightGraph.isMixed, WeightGraph.isMixed, hquant]
  have hfloat : g'.floatDtype = g.floatDtype := by
    rw [WeightGraph.floatDtype, WeightGraph.floatDtype, hquant]
  constructor
  · exact fun h => ⟨h.dtype, h.shape, hmixed ▸ hfloat ▸ h.float⟩
  · exact fun h => ⟨h.dtype, h.shape, hmixed ▸ hfloat ▸ h.float⟩

/-- The errors of a record with a new key of the prefix and an expression that was checked. -/
theorem recordErrors_eq_nil_iff (hstart : "d.".toList.isPrefixOf k.toList = true) (hbase : k ∉ base)
    (hcheck : checkNode np k 0 rec.expr = .ok ()) :
    recordErrors np g base k rec = [] ↔
      rec.dtype ∈ logical ∧ (∀ x ∈ rec.shape.getD [], 0 < x) ∧ dtypeContract g k rec.dtype = [] := by
  rw [recordErrors, if_pos hstart, if_neg hbase, hcheck]
  by_cases hdtype : rec.dtype ∈ logical
  · simp only [hdtype, not_true_eq_false, if_false, true_and, nil_append, append_eq_nil_iff]
    by_cases hshape : ∀ x ∈ rec.shape.getD [], 0 < x
    · rw [if_pos hshape]
      exact ⟨fun h => ⟨hshape, h.2⟩, fun h => ⟨rfl, h.2⟩⟩
    · rw [if_neg hshape]
      exact iff_of_false (by simp) fun h => hshape h.1
  · simp [hdtype]

/-- What holds of a recorder after any calls. -/
structure Recorded (np : Numpy α φ) (baseWeights : PyDict String α)
    (baseGraph : Option (WeightGraph φ)) (r : Recorder α φ) : Prop where
  disjoint : ∀ k ∈ r.graph.derivations.keys, k ∉ baseWeights.keys
  order : ∃ keys, InOrder r.graph.derivations baseWeights.keys keys
  /-- The arrays are in the solution of the table. -/
  solution : ∃ ref, Solution np r.graph.derivations baseWeights (baseOf baseGraph r.graph) ref ∧
    ∀ k a, r.arrays.get? k = some a →
      ∃ rec, r.graph.derivations.get? k = some rec ∧ ref.get? k = some (a, rec.dtype)
  errors : ∀ k rec, r.graph.derivations.get? k = some rec →
    (recordErrors np r.graph baseWeights.keys k rec = [] ↔
      (k ∈ r.arrays.keys → Recordable r.graph rec))

/-- What a call that does not raise has done. -/
theorem put_spec {r r' : Recorder α φ} {new : String} {expr : Node φ}
    (h : r.put np baseWeights baseGraph new expr = .ok r') :
    new ∉ r.graph.derivations.keys ∧ new ∉ baseWeights.keys ∧
      "d.".toList.isPrefixOf new.toList = true ∧ checkNode np new 0 expr = .ok () ∧
      ∃ a dtype, evalNode np (r.resolve np baseWeights baseGraph) expr = .ok (a, dtype) ∧
        r' = { graph := { r.graph with table := some (r.graph.derivations.set new
                { dtype, shape := some ((np.shape a).map Nat.cast), expr }) }.declare new dtype
               arrays := r.arrays.set new a } := by
  rw [Recorder.put, ite_error_eq_ok_iff, ite_error_eq_ok_iff] at h
  obtain ⟨hnew, hstart, h⟩ := h
  obtain ⟨⟨⟩, hcheck, h⟩ := bind_eq_ok_iff.mp h
  cases heval : evalNode np (r.resolve np baseWeights baseGraph) expr with
  | error code =>
    rw [heval] at h
    cases h
  | ok v =>
    rw [heval] at h
    injection h with h
    exact ⟨fun hd => hnew (.inl hd), fun hb => hnew (.inr hb), not_not.mp hstart, hcheck,
      v.1, v.2, rfl, h.symm⟩

section
variable {baseGraph : Option (WeightGraph φ)} {r : Recorder α φ} {ref : PyDict String (α × String)}
  {v : α × String} {new : String} {r' : Recorder α φ}

/-- What a recorder reads has the value of the solution. -/
theorem Recorded.resolve_eq (h : Recorded np baseWeights baseGraph r)
    (hsol : Solution np r.graph.derivations baseWeights (baseOf baseGraph r.graph) ref)
    (harrays : ∀ k a, r.arrays.get? k = some a →
      ∃ rec, r.graph.derivations.get? k = some rec ∧ ref.get? k = some (a, rec.dtype)) {k : String}
    (hv : r.resolve np baseWeights baseGraph k = .ok v) :
    resolveDone np baseWeights (baseOf baseGraph r.graph) ref k = .ok v ∧
      (k ∈ r.graph.derivations.keys ∨ k ∈ baseWeights.keys) := by
  rw [Recorder.resolve] at hv
  cases hget : r.arrays.get? k with
  | some a =>
    obtain ⟨rec, hrec, href⟩ := harrays k a hget
    rw [hget, hrec] at hv
    rw [resolveDone, href]
    exact ⟨hv, .inl (mem_keys_of_get? hrec)⟩
  | none =>
    rw [hget] at hv
    cases hbase : baseWeights.get? k with
    | none =>
      rw [hbase] at hv
      cases hv
    | some a =>
      have hkey := mem_keys_of_get? hbase
      have hnone : ref.get? k = none := get?_eq_none_iff.mpr fun href =>
        h.disjoint k ((hsol.mem k).mp href) hkey
      rw [hbase] at hv
      rw [resolveDone, hnone, hbase]
      exact ⟨hv, .inr hkey⟩

/-- Nothing that is read before a key is recorded is changed by the record. -/
theorem resolveDone_declare {g : WeightGraph φ} {d' : PyDict String (Derivation φ)} {c : String}
    (hc : c ≠ new) :
    resolveDone np baseWeights (baseOf baseGraph ({ g with table := some d' }.declare new v.2))
        (ref.set new v) c =
      resolveDone np baseWeights (baseOf baseGraph g) ref c := by
  have hdtype : ∀ a, logicalDtype np
      (baseOf baseGraph ({ g with table := some d' }.declare new v.2)) c a =
      logicalDtype np (baseOf baseGraph g) c a := by
    intro a
    cases baseGraph with
    | some b => rfl
    | none => exact logicalDtype_congr (declare_quant _ _ _) (get?_declare_of_ne _ _ hc) a
  rw [resolveDone, resolveDone, get?_set_of_ne _ _ hc]
  simp only [hdtype]

/-- One call keeps what holds of a recorder. -/
theorem Recorded.put (h : Recorded np baseWeights baseGraph r) {expr : Node φ}
    (hput : r.put np baseWeights baseGraph new expr = .ok r') :
    Recorded np baseWeights baseGraph r' := by
  obtain ⟨hnewd, hnewb, hstart, hcheck, a, dtype, heval, rfl⟩ := put_spec hput
  obtain ⟨keys, horder⟩ := h.order
  obtain ⟨ref, hsol, harrays⟩ := h.solution
  set d := r.graph.derivations with hd
  set record : Derivation φ := { dtype, shape := some ((np.shape a).map Nat.cast), expr }
    with hrecord
  set g' : WeightGraph φ :=
    { r.graph with table := some (d.set new record) }.declare new dtype with hg'
  have hd' : g'.derivations = d.set new record := declare_derivations _ _ _
  have hquant : g'.quant = r.graph.quant := declare_quant _ _ _
  have hleaves : ∀ k, k ≠ new → leaves (d.set new record) k = leaves d k := by
    intro k hk
    rw [leaves, leaves, get?_set_of_ne _ _ hk]
  have hread : ∀ c ∈ exprLeaves expr, ∃ v, r.resolve np baseWeights baseGraph c = .ok v :=
    fun c hc => exists_of_evalNode np heval hc
  have hleafne : ∀ c, c ∈ d.keys ∨ c ∈ baseWeights.keys → c ≠ new := by
    rintro c hc rfl
    exact hc.elim hnewd hnewb
  constructor
  · intro k hk
    rw [hd', mem_keys_set] at hk
    rcases hk with rfl | hk
    · exact hnewb
    · exact h.disjoint k hk
  · refine ⟨keys ++ [new], ?_, ?_⟩
    · rw [hd']
      refine .snoc (horder.1.imp fun pre k hk hdone c hc => ?_)
        (fun hmem => hnewd (horder.2.mem_iff.mp hmem)) fun c hc => ?_
      · have hkne : k ≠ new := hleafne k (.inl (horder.2.mem_iff.mp hk))
        rw [hleaves k hkne] at hc
        rcases hdone c hc with hno | ⟨hyes, hmem⟩
        · obtain ⟨hcd, hcb⟩ := follow_eq_false_iff.mp hno
          refine .inl (follow_eq_false_iff.mpr ⟨fun hmem => ?_, hcb⟩)
          exact (mem_keys_set.mp hmem).elim (hleafne c (.inr hcb)) hcd
        · exact .inr ⟨follow_eq_true_iff.mpr
            (mem_keys_set.mpr (.inr (follow_eq_true_iff.mp hyes))), hmem⟩
      · -- The new expression reads keys that were recorded, and base weights.
        obtain ⟨rec, hrec, hmem⟩ := mem_leaves.mp hc
        rw [get?_set_self] at hrec
        cases hrec
        obtain ⟨v, hv⟩ := hread c hmem
        rcases (h.resolve_eq hsol harrays hv).2 with hcd | hcb
        · exact .inr ⟨follow_eq_true_iff.mpr (mem_keys_set.mpr (.inr hcd)),
            horder.2.mem_iff.mpr hcd⟩
        · refine .inl (follow_eq_false_iff.mpr ⟨fun hmem => ?_, hcb⟩)
          exact (mem_keys_set.mp hmem).elim (hleafne c (.inr hcb)) fun hcd => h.disjoint c hcd hcb
    · rw [hd', keys_set_of_not_mem _ hnewd]
      exact horder.2.append_right [new]
  · refine ⟨ref.set new (a, dtype), ⟨fun k => ?_, fun k rec hrec => ?_⟩, fun k b hb => ?_⟩
    · rw [hd', mem_keys_set, mem_keys_set, hsol.mem]
    · rw [hd', get?_set] at hrec
      split_ifs at hrec with hk
      · subst hk
        cases hrec
        refine ⟨(a, dtype), get?_set_self _ _ _, ⟨rfl, rfl⟩, ?_⟩
        rw [← heval]
        apply evalNode_congr
        intro c hc
        obtain ⟨v, hv⟩ := hread c hc
        obtain ⟨hdone, hor⟩ := h.resolve_eq hsol harrays hv
        rw [hg', resolveDone_declare (v := (a, dtype)) (hleafne c hor), hdone, hv]
      · obtain ⟨v, hv, hmatches, hval⟩ := hsol.value k rec hrec
        refine ⟨v, by rw [get?_set_of_ne _ _ hk, hv], hmatches, ?_⟩
        rw [← hval]
        apply evalNode_congr
        intro c hc
        have hkeys : k ∈ keys := horder.2.mem_iff.mpr (mem_keys_of_get? hrec)
        have hor : c ∈ d.keys ∨ c ∈ baseWeights.keys := by
          rcases horder.1.done hkeys c (mem_leaves.mpr ⟨rec, hrec, hc⟩) with hno | ⟨hyes, -⟩
          · exact .inr (follow_eq_false_iff.mp hno).2
          · exact .inl (follow_eq_true_iff.mp hyes)
        rw [hg', resolveDone_declare (v := (a, dtype)) (hleafne c hor)]
    · rw [get?_set] at hb
      rw [hd', get?_set, get?_set]
      split_ifs at hb ⊢ with hk
      · cases hb
        exact ⟨record, rfl, rfl⟩
      · exact harrays k b hb
  · intro k rec hrec
    rw [hd', get?_set] at hrec
    rw [mem_keys_set, recordable_congr hquant]
    split_ifs at hrec with hk
    · subst hk
      cases hrec
      rw [recordErrors_eq_nil_iff hstart hnewb hcheck, hg', dtypeContract_declare]
      constructor
      · rintro ⟨hdtype, hshape, hfloat⟩ -
        exact ⟨hdtype, hshape, hfloat⟩
      · intro hrecordable
        obtain ⟨hdtype, hshape, hfloat⟩ := hrecordable (.inl rfl)
        exact ⟨hdtype, hshape, hfloat⟩
    · have hcontract := dtypeContract_congr hquant (get?_declare_of_ne
        { r.graph with table := some (d.set new record) } dtype hk) rec.dtype
      rw [recordErrors_congr hcontract, h.errors k rec hrec]
      simp [hk]

/-- A recorder for a graph whose table is replayed. -/
theorem recorded_new {g : WeightGraph φ} {res : PyDict String α}
    (h : replay np g baseWeights baseGraph = .ok res) :
    Recorded np baseWeights baseGraph ⟨g, PyDict.empty⟩ := by
  obtain ⟨hvalid, ref, hsol⟩ := solution_of_replay h
  obtain ⟨herrors, keys, horder⟩ := validate_eq_nil_iff.mp hvalid
  refine ⟨fun k hk hbase => ?_, ⟨keys, inOrder_of_order horder⟩, ⟨ref, hsol, ?_⟩, ?_⟩
  · obtain ⟨rec, hrec⟩ := mem_keys_iff.mp hk
    have hnil := herrors k rec hrec
    simp [recordErrors, hbase] at hnil
  · intro k a ha
    cases ha
  · intro k rec hrec
    refine iff_of_true (herrors k rec hrec) fun hk => ?_
    cases hk

/-- Any calls keep what holds of a recorder. -/
theorem Recorded.run (h : Recorded np baseWeights baseGraph r) {calls : List (Call φ)}
    (hrun : r.run np baseWeights baseGraph calls = .ok r') :
    Recorded np baseWeights baseGraph r' :=
  foldlM_induction (P := fun _ r => Recorded np baseWeights baseGraph r)
    (fun _ _ _ _ hinv hput => hinv.put hput) h hrun

/-- The table is valid iff what was recorded is recordable. -/
theorem Recorded.validate_iff (h : Recorded np baseWeights baseGraph r) :
    validate np r.graph baseWeights.keys = [] ↔
      ∀ k ∈ r.arrays.keys, ∀ rec, r.graph.derivations.get? k = some rec →
        Recordable r.graph rec := by
  obtain ⟨keys, horder⟩ := h.order
  rw [validate_eq_nil_iff]
  constructor
  · exact fun hvalid k hk rec hrec => (h.errors k rec hrec).mp (hvalid.1 k rec hrec) hk
  · exact fun hrecordable => ⟨fun k rec hrec => (h.errors k rec hrec).mpr fun hk =>
      hrecordable k hk rec hrec, exists_order horder⟩

/-- Recorded weights are valid and replayed to the arrays that were recorded iff they are
recordable. -/
theorem replay_run_iff (np : Numpy α φ) {g : WeightGraph φ} {res : PyDict String α}
    (hgraph : replay np g baseWeights baseGraph = .ok res) {calls : List (Call φ)}
    {r : Recorder α φ} (hrun : Recorder.run np baseWeights baseGraph ⟨g, .empty⟩ calls = .ok r) :
    (validate np r.graph baseWeights.keys = [] ∧
      ∃ res, replay np r.graph baseWeights baseGraph = .ok res ∧
        ∀ k ∈ r.arrays.keys, res.get? k = r.arrays.get? k) ↔
      ∀ k ∈ r.arrays.keys, ∀ rec, r.graph.derivations.get? k = some rec →
        Recordable r.graph rec := by
  have hinv := (recorded_new hgraph).run hrun
  rw [← hinv.validate_iff]
  refine ⟨And.left, fun hvalid => ⟨hvalid, ?_⟩⟩
  obtain ⟨ref, hsol, harrays⟩ := hinv.solution
  obtain ⟨res', hres, hget⟩ := replay_eq_solution hvalid hsol
  refine ⟨res', hres, fun k hk => ?_⟩
  obtain ⟨a, ha⟩ := mem_keys_iff.mp hk
  obtain ⟨rec, -, href⟩ := harrays k a ha
  rw [hget, href, ha]
  rfl

end

/-! ### Examples -/

/-- A vector of whole numbers, in a dtype of numpy. -/
structure Vec where
  dtype : String
  data : List ℤ
  deriving DecidableEq

/-- The value of a number that is whole. -/
def whole : Number ℤ → ℤ
  | .int n => n
  | .float x => x

/-- Numpy on vectors of small whole numbers. -/
def vectors : Numpy Vec ℤ where
  zero := 0
  isfinite _ := true
  kind a := if a.dtype ∈ ["float16", "float32", "float64"] then 'f' else 'i'
  itemsize a := if a.dtype = "float16" then 2 else if a.dtype ∈ ["float32", "int32"] then 4 else 8
  shape a := [a.data.length]
  full shape value := ⟨"float64", List.replicate (shape.prod).toNat (whole value)⟩
  pad a pads value := match pads with
    | [(lo, hi)] => some ⟨a.dtype, List.replicate lo.toNat (whole value) ++ a.data ++
        List.replicate hi.toNat (whole value)⟩
    | _ => none
  stack _ _ := none
  concatenate l axis :=
    if axis ∈ [0, -1] then some ⟨(l.head?.map Vec.dtype).getD "float64", l.flatMap Vec.data⟩
    else none
  transpose a _ := a
  reshape a shape := if shape = [-1] then some a else none
  slice a _ start stop := ⟨a.dtype, (a.data.take stop.toNat).drop start.toNat⟩
  astype a dtype := ⟨dtype, a.data⟩
  scale a factor := ⟨a.dtype, a.data.map (whole factor * ·)⟩
  add a b := some ⟨a.dtype, zipWith (· + ·) a.data b.data⟩
  mul a b := some ⟨a.dtype, zipWith (· * ·) a.data b.data⟩
  roundBf16 a := a

/-- The weight `v`, in `float32`. -/
def vWeights : PyDict String Vec := .ofList [("v", ⟨"float32", [1, 2]⟩)]

/-- A graph in `fp32` without derived weights. -/
def fp32Graph : WeightGraph ℤ := ⟨some "fp32", none, none⟩

/-- `v` twice, and that three times as large. -/
def scaledCalls : List (Call ℤ) :=
  [.concat "d.v2" [.key "v", .key "v"] 0, .scale "d.v3" (.key "d.v2") 3]

/-- The recorder that the calls leave. -/
def scaled : Recorder Vec ℤ :=
  match Recorder.run vectors vWeights none ⟨fp32Graph, .empty⟩ scaledCalls with
  | .ok r => r
  | .error _ => ⟨fp32Graph, .empty⟩

theorem replay_scaled :
    Recorder.run vectors vWeights none ⟨fp32Graph, .empty⟩ scaledCalls = .ok scaled ∧
      (scaled.arrays.get? "d.v3").map Vec.data = some [3, 6, 3, 6] ∧
      validate vectors scaled.graph vWeights.keys = [] ∧
      ∃ res, replay vectors scaled.graph vWeights none = .ok res ∧
        ∀ k ∈ scaled.arrays.keys, res.get? k = scaled.arrays.get? k := by
  have hrun : Recorder.run vectors vWeights none ⟨fp32Graph, .empty⟩ scaledCalls = .ok scaled := rfl
  have hempty : replay vectors fp32Graph vWeights none = .ok .empty := rfl
  refine ⟨hrun, by decide, (replay_run_iff vectors hempty hrun).mpr ?_⟩
  intro k hk rec hrec
  have hkeys : scaled.arrays.keys = ["d.v2", "d.v3"] := by decide
  rw [hkeys, mem_cons, mem_singleton] at hk
  rcases hk with rfl | rfl
  · cases hrec
    exact ⟨by decide, by decide, by decide⟩
  · cases hrec
    exact ⟨by decide, by decide, by decide⟩

/-- The graph stores its float weights in `f32`, and the recorder writes a weight in `f16`. -/
theorem cast_breaks_contract :
    ∃ r, Recorder.run vectors vWeights none ⟨fp32Graph, .empty⟩
        [.cast "d.v16" (.key "v") (.str "f16")] = .ok r ∧
      validate vectors r.graph vWeights.keys = [⟨.dtypeContract, "d.v16"⟩] :=
  ⟨_, rfl, by rfl⟩

end ModelBlaster.WeightDerivations

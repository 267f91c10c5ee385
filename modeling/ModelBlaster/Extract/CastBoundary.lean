import ModelBlaster.Library.PyDict
import Mathlib.Algebra.BigOperators.Group.List.Basic
import ModelBlaster.Library.Greedy
import Mathlib.Algebra.Field.Rat

/-!
# The casts at the boundaries of the islands

The entries of the tensors that the casts do not write stay as they are, so that what an op reads
behind the pass depends on the tensors before it alone. The loop is followed with an invariant: the
ops so far, each with its inputs renamed, have casts between them, one for each tensor and dtype,
and each behind what writes its tensor.

## Main definitions

* `promoteOps`: `_promote_ops_to_fp16`;
* `insertCasts`: `_insert_casts_i8_f16`;
* `CastConsistent`: what the pass makes;
* `CastInv`: the invariant of the loop.

## Main results

* `typed_promoteOps`: behind promotion, every op writes the dtype that is recorded;
* `castConsistent_insertCasts`: the pass is right where the names of its casts are free.
-/

/-! ## Islands of half precision in the int8 IR -/

namespace ModelBlaster.Extract.Mixed

/-! ### The IR -/

/-- The dtype of a tensor between ops. -/
inductive Surface where
  | i8
  | f16
  | f32
  deriving DecidableEq, Repr

/-- How a dtype is written. -/
def Surface.text : Surface → String
  | .i8 => "i8"
  | .f16 => "f16"
  | .f32 => "f32"

/-- `precision` -/
inductive Precision where
  | int8
  | fp16
  deriving DecidableEq, Repr

/-- `quant` of a tensor. -/
structure TensorQuant (κ : Type) where
  scale : κ
  zeroPoint : ℤ
  deriving DecidableEq, Repr

/-- An entry of `tensors_meta`. -/
structure TensorMeta (κ : Type) where
  shape : List ℕ
  dtype : Option Surface
  quant : Option (TensorQuant κ)
  persistent : Bool := false
  deriving DecidableEq

/-- `quant` of an op. -/
inductive OpQuant (κ : Type) where
  /-- The scales at which the op takes its inputs, where it has them. -/
  | reads (scales : List κ)
  | cast (q : TensorQuant κ)
  deriving DecidableEq

/-- An op, with the fields that promotion and casts look at. -/
structure MixedOp (κ : Type) where
  name : String
  op : String
  precision : Option Precision
  inputs : List String
  outputs : List String
  /-- The tensors of `state`. -/
  state : List String
  weight : Option String
  bias : Option String
  weightHh : Option String
  biasHh : Option String
  /-- `n` of `shape`, of a cast. -/
  size : Option ℕ
  quant : OpQuant κ
  deriving DecidableEq

variable {κ : Type}

/-- `meta.get("dtype", "i8")` -/
def TensorMeta.surface (m : TensorMeta κ) : Surface := m.dtype.getD .i8

/-! ### Promotion -/

section
variable {F W : Type} (half : F → W) (plus : F → F → F) (stash : PyDict String F)

/-- The weights under a key that an op may have, again in half precision. -/
def storeHalf (weights : PyDict String W) (key : Option String) : PyDict String W :=
  match key.filter (· ≠ "") with
  | none => weights
  | some k =>
    match stash.get? k with
    | none => weights
    | some array => weights.set k (half array)

/-- The one bias of an LSTM: both are added. -/
def storeFolded (weights : PyDict String W) (o : MixedOp κ) : PyDict String W :=
  match o.bias.filter (· ≠ "") with
  | none => weights
  | some k =>
    match stash.get? k with
    | none => weights
    | some array =>
      match (o.biasHh.filter (· ≠ "")).bind stash.get? with
      | none => weights.set k (half array)
      | some array' => weights.set k (half (plus array array'))

/-- The kind of half precision. -/
def promotedKind (kind : String) : String :=
  if "_s8".toList.isSuffixOf kind.toList then
    String.ofList (kind.toList.take (kind.toList.length - 3)) ++ "_f16"
  else kind

/-- The tensor is stored in half precision. -/
def TensorMeta.halved (m : TensorMeta κ) : TensorMeta κ :=
  { m with dtype := some .f16, quant := none }

/-- An output or a state of a promoted op. -/
def touch (tensors : PyDict String (TensorMeta κ)) (t : String) : PyDict String (TensorMeta κ) :=
  match tensors.get? t with
  | none => tensors
  | some m => tensors.set t m.halved

/-- The state of the loop over the ops. -/
structure PromoteState (κ W : Type) where
  ops : List (MixedOp κ)
  tensors : PyDict String (TensorMeta κ)
  weights : PyDict String W
  promoted : List String

/-- What becomes of an op that is promoted. -/
def promoted (o : MixedOp κ) : MixedOp κ :=
  { o with
    op := promotedKind o.op
    precision := some .fp16
    biasHh := if promotedKind o.op = "lstm_f16" then none else o.biasHh }

/-- What becomes of an op that is not. -/
def kept (o : MixedOp κ) : MixedOp κ := { o with precision := some (o.precision.getD .int8) }

/-- The weights of an op that is promoted. -/
def promoteWeights (weights : PyDict String W) (o : MixedOp κ) : PyDict String W :=
  if promotedKind o.op = "lstm_f16" then
    [o.weight, o.weightHh].foldl (storeHalf half stash) (storeFolded half plus stash weights o)
  else [o.weight, o.bias, o.weightHh, o.biasHh].foldl (storeHalf half stash) weights

/-- The loop over the ops. -/
def promoteOp (names : List String) (s : PromoteState κ W) (o : MixedOp κ) : PromoteState κ W :=
  if o.name ∉ names then { s with ops := s.ops ++ [kept o] }
  else {
    ops := s.ops ++ [promoted o]
    tensors := (o.outputs ++ o.state.filter (· ≠ "")).foldl touch s.tensors
    weights := promoteWeights half plus stash s.weights o
    promoted := s.promoted ++ [o.name] }

/-- `_promote_ops_to_fp16` -/
def promoteOps (ops : List (MixedOp κ)) (names : List String)
    (tensors : PyDict String (TensorMeta κ)) (weights : PyDict String W) : PromoteState κ W :=
  ops.foldl (promoteOp half plus stash names) ⟨[], tensors, weights, []⟩

end

/-! ### Casts -/

/-- `consumer_dtype` -/
def consumerDtype (o : MixedOp κ) : Surface :=
  match o.precision with
  | some .fp16 => .f16
  | some .int8 => .i8
  | none => if "_f16".toList.isSuffixOf o.op.toList then .f16 else .i8

/-- The dtypes between which casts are put. -/
def Crosses (src dst : Surface) : Prop := (src = .i8 ∧ dst = .f16) ∨ (src = .f16 ∧ dst = .i8)

instance (src dst : Surface) : Decidable (Crosses src dst) := inferInstanceAs (Decidable (_ ∨ _))

/-- The name of a tensor in the other dtype. -/
def castName (t : String) (dst : Surface) : String := t ++ "__cast_" ++ dst.text

/-- A cast of a tensor. -/
structure Cast (κ : Type) where
  tensor : String
  src : Surface
  dst : Surface
  shape : List ℕ
  scale : κ

/-- The tensor that a cast writes. -/
def Cast.out (c : Cast κ) : String := castName c.tensor c.dst

/-- The op of a cast. -/
def Cast.toOp (c : Cast κ) : MixedOp κ where
  name := c.out
  op := if c.src = .i8 ∧ c.dst = .f16 then "cast_i8_to_f16" else "cast_f16_to_i8"
  precision := some (if c.dst = .f16 then .fp16 else .int8)
  inputs := [c.tensor]
  outputs := [c.out]
  state := []
  weight := none
  bias := none
  weightHh := none
  biasHh := none
  size := some c.shape.prod
  quant := .cast ⟨c.scale, 0⟩

/-- The entry of the tensor that a cast writes. -/
def Cast.toMeta (c : Cast κ) : TensorMeta κ where
  shape := c.shape
  dtype := some c.dst
  quant := if c.dst = .f16 then none else some ⟨c.scale, 0⟩

/-- The state of the loop over the ops. -/
structure CastState (κ : Type) where
  newOps : List (MixedOp κ)
  tensors : PyDict String (TensorMeta κ)
  /-- `cast_intermediates` -/
  made : PyDict (String × Surface) String

/-- A cast, in front of the op that reads its tensor first. -/
def CastState.addCast (s : CastState κ) (c : Cast κ) : CastState κ where
  newOps := s.newOps ++ [c.toOp]
  tensors := s.tensors.set c.out c.toMeta
  made := s.made.set (c.tensor, c.dst) c.out

section
variable (scales : PyDict String κ) (least : κ)

/-- `scales.get(in_name, 1e-8)` -/
def scaleOf (t : String) : κ := (scales.get? t).getD least

/-- What an op of a dtype reads in place of a tensor. -/
def readAs (dst : Surface) (s : CastState κ) (t : String) : CastState κ × String :=
  match s.tensors.get? t with
  | none => (s, t)
  | some m =>
    if m.surface = dst ∨ ¬Crosses m.surface dst then (s, t)
    else
      match s.made.get? (t, dst) with
      | some out => (s, out)
      | none =>
        let c : Cast κ := ⟨t, m.surface, dst, m.shape, scaleOf scales least t⟩
        (s.addCast c, c.out)

/-- The loop over the inputs of an op. -/
def readStep (dst : Surface) (acc : CastState κ × List String) (t : String) :
    CastState κ × List String :=
  let read := readAs scales least dst acc.1 t
  (read.1, acc.2 ++ [read.2])

/-- The loop over the ops. -/
def insertOp (s : CastState κ) (o : MixedOp κ) : CastState κ :=
  let read := o.inputs.foldl (readStep scales least (consumerDtype o)) (s, [])
  { read.1 with newOps := read.1.newOps ++ [{ o with inputs := read.2 }] }

/-- `_insert_casts_i8_f16`: the ops, and the tensors with those of the casts. -/
def insertCasts (ops : List (MixedOp κ)) (tensors : PyDict String (TensorMeta κ)) :
    List (MixedOp κ) × PyDict String (TensorMeta κ) :=
  let s := ops.foldl (insertOp scales least) ⟨[], tensors, PyDict.empty⟩
  (s.newOps, s.tensors)

end

open List PyDict

/-! ### The property -/

/-- The dtype that a tensor is recorded in. -/
def recorded (tensors : PyDict String (TensorMeta κ)) (t : String) : Option Surface :=
  (tensors.get? t).map TensorMeta.surface

/-- Whether an op of a dtype reads a tensor through a cast. -/
def ReadsCast (tensors : PyDict String (TensorMeta κ)) (dst : Surface) (t : String) : Prop :=
  ∃ src ∈ recorded tensors t, Crosses src dst

instance (tensors : PyDict String (TensorMeta κ)) (dst : Surface) (t : String) :
    Decidable (ReadsCast tensors dst t) :=
  inferInstanceAs (Decidable (∃ src ∈ recorded tensors t, Crosses src dst))

/-- The scales at which an op takes its inputs. -/
def MixedOp.reads (o : MixedOp κ) : List κ :=
  match o.quant with
  | .reads scales => scales
  | .cast _ => []

/-- An op comes behind those that write its inputs. -/
def Ordered (ops : List (MixedOp κ)) : Prop :=
  ∀ pre o post, ops = pre ++ o :: post → ∀ t ∈ o.inputs, ∀ o' ∈ o :: post, t ∉ o'.outputs

/-- The tensors of the ops are in one of the two dtypes, and an op writes its own. -/
structure Typed (ops : List (MixedOp κ)) (tensors : PyDict String (TensorMeta κ)) : Prop where
  inputs : ∀ o ∈ ops, ∀ t ∈ o.inputs,
    recorded tensors t = some .i8 ∨ recorded tensors t = some .f16
  outputs : ∀ o ∈ ops, ∀ t ∈ o.outputs, recorded tensors t = some (consumerDtype o)

/-- The names of the casts are not those of tensors. -/
def CastNamesFree (ops : List (MixedOp κ)) (tensors : PyDict String (TensorMeta κ)) : Prop :=
  ∀ o ∈ ops, ∀ t ∈ o.inputs, ReadsCast tensors (consumerDtype o) t →
    castName t (consumerDtype o) ∉ tensors.keys

instance (ops : List (MixedOp κ)) (tensors : PyDict String (TensorMeta κ)) :
    Decidable (CastNamesFree ops tensors) := inferInstanceAs (Decidable (∀ o ∈ ops, _))

/-- The int8 ops take their inputs at the scales of the table. -/
def ReadsTable (scales : PyDict String κ) (ops : List (MixedOp κ)) : Prop :=
  ∀ o ∈ ops, consumerDtype o = .i8 → ∀ p ∈ o.inputs.zip o.reads, scales.get? p.1 = some p.2

instance [DecidableEq κ] (scales : PyDict String κ) (ops : List (MixedOp κ)) :
    Decidable (ReadsTable scales ops) := inferInstanceAs (Decidable (∀ o ∈ ops, _))

/-- The tensor that a name stands for: a cast stands for its tensor. -/
def uncastName (casts : List (Cast κ)) (x : String) : String :=
  match casts.find? fun c => c.out = x with
  | some c => c.tensor
  | none => x

/-- Whether an op is one of the casts. -/
def isCastOp (casts : List (Cast κ)) (o : MixedOp κ) : Bool :=
  casts.any fun c => o.outputs = [c.out]

/-- The ops without the casts, which read the tensors that they had read. -/
def undoCasts (casts : List (Cast κ)) (ops : List (MixedOp κ)) : List (MixedOp κ) :=
  (ops.filter fun o => !isCastOp casts o).map fun o =>
    { o with inputs := o.inputs.map (uncastName casts) }

/-- The int8 side of a cast. -/
def Cast.int8Side (c : Cast κ) : String := if c.dst = .i8 then c.out else c.tensor

/-- What the pass makes of the ops: `casts` are those that it puts in. -/
structure CastConsistent (scales : PyDict String κ) (least : κ) (ops : List (MixedOp κ))
    (ops' : List (MixedOp κ)) (tensors' : PyDict String (TensorMeta κ)) (casts : List (Cast κ)) :
    Prop where
  /-- The casts are in the list, in this order and no others. -/
  listed : ops'.filter (isCastOp casts) = casts.map Cast.toOp
  /-- The inputs of every op but the casts are in the dtype of the op. -/
  inputs : ∀ o ∈ ops', isCastOp casts o = false → ∀ t ∈ o.inputs,
    recorded tensors' t = some (consumerDtype o)
  /-- The input of a cast is in the other dtype. -/
  sources : ∀ c ∈ casts, Crosses c.src c.dst ∧ recorded tensors' c.tensor = some c.src ∧
    consumerDtype c.toOp = c.dst
  outputs : ∀ o ∈ ops', ∀ t ∈ o.outputs, recorded tensors' t = some (consumerDtype o)
  /-- A cast stands behind what writes its tensor, and in front of what reads it. -/
  placed : ∀ c ∈ casts, ∃ pre post, ops' = pre ++ c.toOp :: post ∧
    (∀ o ∈ c.toOp :: post, c.tensor ∉ o.outputs) ∧ ∀ o ∈ pre, c.out ∉ o.inputs
  once : (casts.map fun c => (c.tensor, c.dst)).Nodup
  scale : ∀ c ∈ casts, c.scale = scaleOf scales least c.tensor
  /-- An int8 op takes the int8 side of a cast at the scale of the cast. -/
  read : ∀ c ∈ casts, ∀ o ∈ ops', consumerDtype o = .i8 → ∀ p ∈ o.inputs.zip o.reads,
    p.1 = c.int8Side → p.2 = c.scale
  undone : undoCasts casts ops' = ops

/-! ### Names -/

variable {t : String}

/-- A name belongs to one cast. -/
theorem castName_inj {t' : String} {dst dst' : Surface} (h : castName t dst = castName t' dst') :
    t = t' ∧ dst = dst' := by
  have hlist := congrArg String.toList h
  simp only [castName, String.toList_append] at hlist
  -- The last character tells the dtype.
  have hlast : ∀ (l : List Char) (d : Surface),
      (l ++ d.text.toList).getLast? = d.text.toList.getLast? := by
    intro l d
    rw [getLast?_append]
    cases d <;> rfl
  have hdst : dst = dst' := by
    have heq := (hlast _ dst).symm.trans ((congrArg List.getLast? hlist).trans (hlast _ dst'))
    have hinj : ∀ d d' : Surface, d.text.toList.getLast? = d'.text.toList.getLast? → d = d' := by
      intro d d'
      cases d <;> cases d' <;> decide
    exact hinj dst dst' heq
  subst hdst
  have hfront := append_cancel_right (append_cancel_right hlist)
  exact ⟨String.toList_inj.mp hfront, rfl⟩

variable {tensors : PyDict String (TensorMeta κ)} {ops : List (MixedOp κ)}

theorem mem_keys_of_recorded {d : Surface} (h : recorded tensors t = some d) :
    t ∈ tensors.keys := by
  obtain ⟨m, hm, -⟩ := Option.map_eq_some_iff.mp h
  exact mem_keys_of_get? hm

theorem Typed.mem_keys (h : Typed ops tensors) {o : MixedOp κ} (ho : o ∈ ops) (ht : t ∈ o.inputs) :
    t ∈ tensors.keys :=
  (h.inputs o ho t ht).elim mem_keys_of_recorded mem_keys_of_recorded

/-! ### Promotion -/

section
variable {F W : Type} {half : F → W} {plus : F → F → F} {stash : PyDict String F}

theorem recorded_touch (tensors : PyDict String (TensorMeta κ)) (t u : String) :
    recorded (touch tensors t) u = if u = t then (recorded tensors u).map fun _ => .f16
      else recorded tensors u := by
  rw [touch]
  cases hget : tensors.get? t with
  | none =>
    split_ifs with hu
    · rw [hu, recorded, hget]
      rfl
    · rfl
  | some m =>
    split_ifs with hu
    · rw [hu, recorded, recorded, get?_set_self, hget]
      rfl
    · rw [recorded, recorded, get?_set_of_ne _ _ hu]

/-- What a promoted op touches is in half precision. -/
theorem recorded_foldl_touch (ts : List String) (tensors : PyDict String (TensorMeta κ))
    (u : String) : recorded (ts.foldl touch tensors) u =
      if u ∈ ts then (recorded tensors u).map fun _ => .f16 else recorded tensors u := by
  induction ts generalizing tensors with
  | nil => simp
  | cons t rest ih =>
    rw [foldl_cons, ih, recorded_touch]
    by_cases hu : u = t
    · subst hu
      by_cases hrest : u ∈ rest
      · simp [hrest, Function.comp_def]
      · simp [hrest]
    · simp [hu]

/-- What a promoted op touches: its outputs, and its states. -/
def MixedOp.touched (o : MixedOp κ) : List String := o.outputs ++ o.state.filter (· ≠ "")

theorem promoteOps_spec (ops : List (MixedOp κ)) (names : List String)
    (tensors : PyDict String (TensorMeta κ)) (weights : PyDict String W) :
    (promoteOps half plus stash ops names tensors weights).ops =
        ops.map (fun o => if o.name ∈ names then promoted o else kept o) ∧
      ∀ u, recorded (promoteOps half plus stash ops names tensors weights).tensors u =
        if ∃ o ∈ ops, o.name ∈ names ∧ u ∈ o.touched then (recorded tensors u).map fun _ => .f16
        else recorded tensors u := by
  induction ops using reverseRecOn with
  | nil => exact ⟨rfl, fun u => by simp [promoteOps]⟩
  | append_singleton rest o ih =>
    obtain ⟨hops, htensors⟩ := ih
    rw [promoteOps] at hops htensors ⊢
    rw [foldl_append, foldl_cons, foldl_nil, promoteOp]
    simp only [map_append, map_cons, map_nil, mem_append, mem_singleton,
      or_and_right, exists_or, exists_eq_left]
    by_cases hname : o.name ∈ names
    case neg =>
      rw [if_pos hname, if_neg hname]
      refine ⟨by rw [hops], fun u => ?_⟩
      exact (htensors u).trans (by simp only [hname, false_and, or_false])
    case pos =>
      rw [if_neg (not_not.mpr hname)]
      refine ⟨by simp only [hops, if_pos hname], fun u => ?_⟩
      rw [recorded_foldl_touch, htensors]
      by_cases hu : u ∈ o.touched
      · rw [if_pos (show u ∈ o.outputs ++ o.state.filter (· ≠ "") from hu)]
        simp only [hname, hu, and_self, or_true, if_true]
        split_ifs <;> simp [Function.comp_def]
      · rw [if_neg (show u ∉ o.outputs ++ o.state.filter (· ≠ "") from hu)]
        simp only [hu, and_false, or_false]

/-- Promotion of an int8 IR leaves the outputs of every op recorded in the dtype of the op, if no
two ops write or keep the same tensor. -/
theorem typed_promoteOps {ops : List (MixedOp κ)} {names : List String}
    {tensors : PyDict String (TensorMeta κ)} {weights : PyDict String W}
    (hinputs : ∀ o ∈ ops, ∀ t ∈ o.inputs,
      recorded tensors t = some .i8 ∨ recorded tensors t = some .f16)
    (houtputs : ∀ o ∈ ops, o.precision = none ∧ ∀ t ∈ o.outputs, recorded tensors t = some .i8)
    (hown : ∀ o ∈ ops, ∀ o' ∈ ops, ∀ t ∈ o.outputs, t ∈ o'.touched → o.name = o'.name) :
    Typed (promoteOps half plus stash ops names tensors weights).ops
      (promoteOps half plus stash ops names tensors weights).tensors := by
  obtain ⟨hops, htensors⟩ := @promoteOps_spec κ F W half plus stash ops names tensors weights
  have hfields : ∀ o : MixedOp κ,
      (if o.name ∈ names then promoted o else kept o).inputs = o.inputs ∧
      (if o.name ∈ names then promoted o else kept o).outputs = o.outputs := by
    intro o
    split_ifs <;> exact ⟨rfl, rfl⟩
  rw [hops]
  constructor
  case inputs =>
    intro o' ho' t ht
    obtain ⟨o, ho, rfl⟩ := mem_map.mp ho'
    rw [(hfields o).1] at ht
    rw [htensors]
    have hold := hinputs o ho t ht
    split_ifs
    · rcases hold with hold | hold <;> exact .inr (by rw [hold]; rfl)
    · exact hold
  case outputs =>
    intro o' ho' t ht
    obtain ⟨o, ho, rfl⟩ := mem_map.mp ho'
    rw [(hfields o).2] at ht
    rw [htensors, (houtputs o ho).2 t ht]
    by_cases hname : o.name ∈ names
    · rw [if_pos hname, if_pos ⟨o, ho, hname, mem_append_left _ ht⟩]
      rfl
    · have hno : ¬∃ o' ∈ ops, o'.name ∈ names ∧ t ∈ o'.touched := by
        rintro ⟨o', ho', hname', ht'⟩
        exact hname (hown o ho o' ho' t ht ht' ▸ hname')
      rw [if_neg hname, if_neg hno, consumerDtype, kept, (houtputs o ho).1]
      rfl

end

/-! ### Reading through casts -/

section
variable (tensors : PyDict String (TensorMeta κ))

/-- What an op of a dtype reads in place of a tensor. -/
def readName (dst : Surface) (t : String) : String :=
  if ReadsCast tensors dst t then castName t dst else t

/-- An op behind the loop. -/
def rewritten (o : MixedOp κ) : MixedOp κ :=
  { o with inputs := o.inputs.map (readName tensors (consumerDtype o)) }

@[simp] theorem outputs_rewritten (o : MixedOp κ) : (rewritten tensors o).outputs = o.outputs := rfl

@[simp] theorem consumerDtype_rewritten (o : MixedOp κ) :
    consumerDtype (rewritten tensors o) = consumerDtype o := rfl

@[simp] theorem reads_rewritten (o : MixedOp κ) : (rewritten tensors o).reads = o.reads := rfl

/-- The cast of a tensor is among those that are made. -/
def HasCast (casts : List (Cast κ)) (dst : Surface) (t : String) : Prop :=
  ∃ c ∈ casts, c.tensor = t ∧ c.dst = dst

/-- A cast stands behind what writes its tensor, and in front of what reads it. -/
def Placed (newOps : List (MixedOp κ)) (c : Cast κ) : Prop :=
  ∃ pre post, newOps = pre ++ c.toOp :: post ∧ (∀ o ∈ c.toOp :: post, c.tensor ∉ o.outputs) ∧
    ∀ o ∈ pre, c.out ∉ o.inputs

/-- Where a cast comes from. -/
structure Source (scales : PyDict String κ) (least : κ) (c : Cast κ) : Prop where
  entry : ∃ m, tensors.get? c.tensor = some m ∧ c.src = m.surface ∧ c.shape = m.shape
  crosses : Crosses c.src c.dst
  scale : c.scale = scaleOf scales least c.tensor
  free : c.out ∉ tensors.keys

/-- The state of the loop between the ops `done` and `rest`: `casts` are those that it has put
in. -/
structure CastInv (scales : PyDict String κ) (least : κ) (done rest : List (MixedOp κ))
    (s : CastState κ) (casts : List (Cast κ)) : Prop where
  spliced : Spliced Cast.toOp (rewritten tensors) casts done s.newOps
  old : ∀ t ∈ tensors.keys, s.tensors.get? t = tensors.get? t
  new : ∀ c ∈ casts, s.tensors.get? c.out = some c.toMeta
  sources : ∀ c ∈ casts, Source tensors scales least c
  made : ∀ t dst, (s.made.get? (t, dst) = none ∧ ¬HasCast casts dst t) ∨
    (s.made.get? (t, dst) = some (castName t dst) ∧ HasCast casts dst t)
  once : (casts.map fun c => (c.tensor, c.dst)).Nodup
  placed : ∀ c ∈ casts, Placed s.newOps c
  unwritten : ∀ c ∈ casts, ∀ o ∈ rest, c.tensor ∉ o.outputs
  used : ∀ o ∈ done, ∀ t ∈ o.inputs, ReadsCast tensors (consumerDtype o) t →
    HasCast casts (consumerDtype o) t

end

/-! ### The loop -/

section
variable {tensors : PyDict String (TensorMeta κ)} {scales : PyDict String κ} {least : κ}
  {ops done rest : List (MixedOp κ)} {s : CastState κ} {casts : List (Cast κ)}

variable {c : Cast κ} {o : MixedOp κ}

theorem Placed.append {newOps : List (MixedOp κ)} (h : Placed newOps c)
    (hout : c.tensor ∉ o.outputs) : Placed (newOps ++ [o]) c := by
  obtain ⟨pre, post, hsplit, hpost, hpre⟩ := h
  refine ⟨pre, post ++ [o], ?_, ?_, hpre⟩
  · rw [hsplit, append_assoc, cons_append]
  · rw [← cons_append]
    intro o' ho'
    rcases mem_append.mp ho' with hold | hnew
    · exact hpost o' hold
    · rwa [mem_singleton.mp hnew]

theorem Source.mem_keys (h : Source tensors scales least c) :
    c.tensor ∈ tensors.keys := by
  obtain ⟨m, hm, -⟩ := h.entry
  exact mem_keys_of_get? hm

/-- No cast writes the tensor of a cast. -/
theorem Source.notMem_outputs {c' : Cast κ} (h : Source tensors scales least c)
    (h' : Source tensors scales least c') : c.tensor ∉ c'.toOp.outputs := by
  intro hout
  exact h'.free (mem_singleton.mp hout ▸ h.mem_keys)

variable {t : String} {dst : Surface}

section
variable (hinv : CastInv tensors scales least done rest s casts)
  (hdone : ∀ o ∈ done, ∀ t ∈ o.inputs, t ∈ tensors.keys)
include hinv hdone

/-- Nothing reads the output of a cast that is not made. -/
theorem CastInv.notMem_inputs (hfree : castName t dst ∉ tensors.keys) (hmade : ¬HasCast casts dst t)
    {o' : MixedOp κ} (ho' : o' ∈ s.newOps) :
    castName t dst ∉ o'.inputs := by
  intro hread
  rcases hinv.spliced.mem_iff.mp ho' with ⟨c, hc, rfl⟩ | ⟨o, ho, rfl⟩
  · rw [Cast.toOp, mem_singleton] at hread
    exact hfree (hread ▸ (hinv.sources c hc).mem_keys)
  · obtain ⟨t', ht', heq⟩ := mem_map.mp hread
    rw [readName] at heq
    split_ifs at heq with hreads
    · obtain ⟨rfl, rfl⟩ := castName_inj heq
      exact hmade (hinv.used o ho t' ht' hreads)
    · exact hfree (heq ▸ hdone o ho t' ht')

/-- A cast that is put in. -/
theorem CastInv.addCast (hsource : Source tensors scales least c)
    (hmade : ¬HasCast casts c.dst c.tensor) (hwritten : ∀ o ∈ rest, c.tensor ∉ o.outputs) :
    CastInv tensors scales least done rest (s.addCast c) (casts ++ [c]) where
  spliced := hinv.spliced.insert c
  old := by
    intro u hu
    have hne : u ≠ c.out := fun heq => hsource.free (heq ▸ hu)
    exact (get?_set_of_ne _ _ hne).trans (hinv.old u hu)
  new := by
    intro c' hc'
    rcases mem_append.mp hc' with hold | hnew
    · have hne : c'.out ≠ c.out := by
        intro heq
        obtain ⟨htensor, hdst⟩ := castName_inj heq
        exact hmade ⟨c', hold, htensor, hdst⟩
      exact (get?_set_of_ne _ _ hne).trans (hinv.new c' hold)
    · rw [mem_singleton.mp hnew]
      exact get?_set_self _ _ _
  sources := by
    intro c' hc'
    rcases mem_append.mp hc' with hold | hnew
    · exact hinv.sources c' hold
    · rwa [mem_singleton.mp hnew]
  made := by
    intro t dst
    have hcasts : HasCast (casts ++ [c]) dst t ↔
        HasCast casts dst t ∨ c.tensor = t ∧ c.dst = dst := by
      simp [HasCast, or_and_right, exists_or]
    rw [hcasts]
    by_cases hkey : (t, dst) = (c.tensor, c.dst)
    · obtain ⟨rfl, rfl⟩ := Prod.mk.inj hkey
      exact .inr ⟨get?_set_self _ _ _, .inr ⟨rfl, rfl⟩⟩
    · have hne : ¬(c.tensor = t ∧ c.dst = dst) := by
        rintro ⟨rfl, rfl⟩
        exact hkey rfl
      rw [CastState.addCast, get?_set_of_ne _ _ hkey]
      simp only [hne, or_false]
      exact hinv.made t dst
  once := by
    rw [map_append, nodup_append]
    refine ⟨hinv.once, nodup_singleton _, ?_⟩
    rintro key hkey key' hnew rfl
    obtain ⟨c', hc', rfl⟩ := mem_map.mp hkey
    obtain ⟨htensor, hdst⟩ := Prod.mk.inj (mem_singleton.mp hnew)
    exact hmade ⟨c', hc', htensor, hdst⟩
  placed := by
    intro c' hc'
    rcases mem_append.mp hc' with hold | hnew
    · exact (hinv.placed c' hold).append ((hinv.sources c' hold).notMem_outputs hsource)
    · rw [mem_singleton.mp hnew]
      refine ⟨s.newOps, [], rfl, ?_, fun o' ho' =>
        hinv.notMem_inputs hdone hsource.free hmade ho'⟩
      rw [forall_mem_singleton]
      exact hsource.notMem_outputs hsource
  unwritten := by
    intro c' hc'
    rcases mem_append.mp hc' with hold | hnew
    · exact hinv.unwritten c' hold
    · rwa [mem_singleton.mp hnew]
  used := by
    intro o ho t ht hreads
    obtain ⟨c', hc', hkey⟩ := hinv.used o ho t ht hreads
    exact ⟨c', mem_append_left _ hc', hkey⟩

end

variable {m : TensorMeta κ}

theorem readAs_of_not_crosses (hm : s.tensors.get? t = some m) (hcross : ¬Crosses m.surface dst) :
    readAs scales least dst s t = (s, t) := by
  simp only [readAs, hm, hcross, not_false_eq_true, or_true, if_true]

theorem readAs_of_crosses (hm : s.tensors.get? t = some m) (hcross : Crosses m.surface dst) :
    readAs scales least dst s t = (s.made.get? (t, dst)).elim
      (s.addCast ⟨t, m.surface, dst, m.shape, scaleOf scales least t⟩, castName t dst)
      fun out => (s, out) := by
  have hne : m.surface ≠ dst := by
    rintro rfl
    rcases hcross with ⟨hl, hr⟩ | ⟨hl, hr⟩
    · rw [hl] at hr
      cases hr
    · rw [hl] at hr
      cases hr
  simp only [readAs, hm, hcross, hne, not_true_eq_false, or_false, if_false]
  cases s.made.get? (t, dst) <;> rfl

section
variable (hinv : CastInv tensors scales least done rest s casts)
  (hdone : ∀ o ∈ done, ∀ t ∈ o.inputs, t ∈ tensors.keys)
include hinv hdone

/-- What an op reads in place of a tensor, with the cast that it takes. -/
theorem CastInv.readAs (ht : t ∈ tensors.keys)
    (hfree : ReadsCast tensors dst t → castName t dst ∉ tensors.keys)
    (hwritten : ∀ o ∈ rest, t ∉ o.outputs) :
    ∃ more, CastInv tensors scales least done rest (Mixed.readAs scales least dst s t).1
        (casts ++ more) ∧
      (Mixed.readAs scales least dst s t).2 = readName tensors dst t ∧
      (ReadsCast tensors dst t → HasCast (casts ++ more) dst t) := by
  obtain ⟨m, hm⟩ := mem_keys_iff.mp ht
  have hm' : s.tensors.get? t = some m := (hinv.old t ht).trans hm
  have hreads : ReadsCast tensors dst t ↔ Crosses m.surface dst := by
    simp [ReadsCast, recorded, hm]
  by_cases hcross : Crosses m.surface dst
  case neg =>
    rw [readAs_of_not_crosses hm' hcross, readName, if_neg (hreads.not.mpr hcross)]
    refine ⟨[], ?_, rfl, fun h => absurd (hreads.mp h) hcross⟩
    rwa [append_nil]
  case pos =>
    have hyes := hreads.mpr hcross
    rw [readAs_of_crosses hm' hcross, readName, if_pos hyes]
    rcases hinv.made t dst with ⟨hnone, hno⟩ | ⟨hsome, hhas⟩
    · rw [hnone]
      refine ⟨[⟨t, m.surface, dst, m.shape, scaleOf scales least t⟩], ?_, rfl, fun _ => ?_⟩
      · exact hinv.addCast hdone ⟨⟨m, hm, rfl, rfl⟩, hcross, rfl, hfree hyes⟩ hno hwritten
      · exact ⟨_, mem_append_right _ (mem_singleton_self _), rfl, rfl⟩
    · rw [hsome]
      refine ⟨[], ?_, rfl, fun _ => ?_⟩
      · rwa [append_nil]
      · rwa [append_nil]

/-- The loop over the inputs of an op. -/
theorem CastInv.readAll {ts : List String}
    (hts : ∀ t ∈ ts, t ∈ tensors.keys ∧ (ReadsCast tensors dst t → castName t dst ∉ tensors.keys) ∧ ∀ o ∈ rest, t ∉ o.outputs)
    :
    ∃ more, CastInv tensors scales least done rest
        (ts.foldl (readStep scales least dst) (s, [])).1 (casts ++ more) ∧
      (ts.foldl (readStep scales least dst) (s, [])).2 = ts.map (readName tensors dst) ∧
      ∀ t ∈ ts, ReadsCast tensors dst t → HasCast (casts ++ more) dst t := by
  induction ts using reverseRecOn with
  | nil => exact ⟨[], by rwa [append_nil], rfl, fun t ht => absurd ht not_mem_nil⟩
  | append_singleton read t ih =>
    obtain ⟨more, hinv', hnames, hused⟩ := ih fun u hu => hts u (mem_append_left _ hu)
    obtain ⟨hkey, hfree, hwritten⟩ := hts t (by simp)
    obtain ⟨more', hinv'', hname, hcast⟩ := hinv'.readAs hdone hkey hfree hwritten
    rw [append_assoc] at hinv'' hcast
    rw [foldl_append, foldl_cons, foldl_nil]
    refine ⟨more ++ more', hinv'', ?_, fun u hu hreads => ?_⟩
    · show _ ++ [_] = _
      rw [hnames, hname, map_append]
      rfl
    · rcases mem_append.mp hu with hold | hnew
      · obtain ⟨c, hc, hkey⟩ := hused u hold hreads
        refine ⟨c, ?_, hkey⟩
        rw [← append_assoc]
        exact mem_append_left _ hc
      · rw [mem_singleton] at hnew
        exact hnew ▸ hcast (hnew ▸ hreads)

end

/-- The loop over the ops. -/
theorem CastInv.insertOp (hinv : CastInv tensors scales least done (o :: rest) s casts)
    (hsplit : ops = done ++ o :: rest) (hord : Ordered ops) (htyped : Typed ops tensors)
    (hfree : CastNamesFree ops tensors) :
    ∃ more, CastInv tensors scales least (done ++ [o]) rest (Mixed.insertOp scales least s o)
      (casts ++ more) := by
  have hmem : ∀ o' ∈ done ++ [o], o' ∈ ops := by
    intro o' ho'
    rw [hsplit, append_cons]
    exact mem_append_left _ ho'
  have ho : o ∈ ops := hmem o (by simp)
  obtain ⟨more, hinv', hnames, hused⟩ := hinv.readAll
    (fun o' ho' t ht => htyped.mem_keys (hmem o' (mem_append_left _ ho')) ht)
    fun t ht => ⟨htyped.mem_keys ho ht, hfree o ho t ht, hord done o rest hsplit t ht⟩
  have hop : ({ o with inputs := (o.inputs.foldl (readStep scales least (consumerDtype o))
      (s, [])).2 } : MixedOp κ) = rewritten tensors o := by
    rw [hnames]
    rfl
  refine ⟨more, ?_, hinv'.old, hinv'.new, hinv'.sources, hinv'.made, hinv'.once, ?_, ?_, ?_⟩
  · show Spliced _ _ _ _ (_ ++ [_])
    rw [hop]
    exact hinv'.spliced.item o
  · exact fun c hc => (hinv'.placed c hc).append (hinv'.unwritten c hc o mem_cons_self)
  · exact fun c hc o' ho' => hinv'.unwritten c hc o' (mem_cons_of_mem _ ho')
  · intro o' ho' t ht hreads
    rcases mem_append.mp ho' with hold | hnew
    · exact hinv'.used o' hold t ht hreads
    · rw [mem_singleton] at hnew
      exact hnew ▸ hused t (hnew ▸ ht) (hnew ▸ hreads)

/-- Behind the loop. -/
theorem exists_castInv (hord : Ordered ops) (htyped : Typed ops tensors)
    (hfree : CastNamesFree ops tensors) :
    ∃ casts, CastInv tensors scales least ops []
      (ops.foldl (Mixed.insertOp scales least) ⟨[], tensors, PyDict.empty⟩) casts := by
  have hrun : ∀ rest done, ops = done ++ rest → ∃ casts, CastInv tensors scales least done rest
      (done.foldl (Mixed.insertOp scales least) ⟨[], tensors, PyDict.empty⟩) casts := by
    intro rest done hsplit
    induction done using reverseRecOn generalizing rest with
    | nil => exact ⟨[], .nil, fun _ _ => rfl, by simp, by simp,
        fun t dst => .inl ⟨rfl, by simp [HasCast]⟩, nodup_nil, by simp, by simp, by simp⟩
    | append_singleton done o ih =>
      rw [append_assoc] at hsplit
      obtain ⟨casts, hinv⟩ := ih _ hsplit
      obtain ⟨more, hinv'⟩ := hinv.insertOp hsplit hord htyped hfree
      refine ⟨casts ++ more, ?_⟩
      rw [foldl_append]
      exact hinv'
  exact hrun [] ops (append_nil ops).symm

/-! ### The result -/

section
variable (hinv : CastInv tensors scales least done rest s casts)
include hinv

theorem CastInv.recorded_old (ht : t ∈ tensors.keys) :
    recorded s.tensors t = recorded tensors t := by
  rw [recorded, hinv.old t ht]
  rfl

theorem CastInv.recorded_out (hc : c ∈ casts) : recorded s.tensors c.out = some c.dst := by
  rw [recorded, hinv.new c hc]
  rfl

/-- The output of no cast is an old tensor. -/
theorem CastInv.out_ne (ht : t ∈ tensors.keys) (hc : c ∈ casts) : c.out ≠ t := by
  rintro rfl
  exact (hinv.sources c hc).free ht

/-- What an op reads in place of an input, and what it stands for. -/
theorem CastInv.readName_cases (ho : o ∈ done) (ht : t ∈ o.inputs) :
    (∃ c ∈ casts, c.tensor = t ∧ c.dst = consumerDtype o ∧
      readName tensors (consumerDtype o) t = c.out) ∨
      (¬ReadsCast tensors (consumerDtype o) t ∧ readName tensors (consumerDtype o) t = t) := by
  by_cases hreads : ReadsCast tensors (consumerDtype o) t
  · obtain ⟨c, hc, htensor, hdst⟩ := hinv.used o ho t ht hreads
    refine .inl ⟨c, hc, htensor, hdst, ?_⟩
    rw [readName, if_pos hreads, Cast.out, htensor, hdst]
  · exact .inr ⟨hreads, if_neg hreads⟩

end

theorem consumerDtype_eq (o : MixedOp κ) : consumerDtype o = .i8 ∨ consumerDtype o = .f16 := by
  unfold consumerDtype
  split
  · exact .inr rfl
  · exact .inl rfl
  · split_ifs
    · exact .inr rfl
    · exact .inl rfl

theorem CastInv.recorded_readName (hinv : CastInv tensors scales least done rest s casts)
    (htyped : Typed done tensors) (ho : o ∈ done) (ht : t ∈ o.inputs) :
    recorded s.tensors (readName tensors (consumerDtype o) t) = some (consumerDtype o) := by
  rcases hinv.readName_cases ho ht with ⟨c, hc, -, hdst, heq⟩ | ⟨hno, heq⟩
  · rw [heq, hinv.recorded_out hc, hdst]
  · rw [heq, hinv.recorded_old (htyped.mem_keys ho ht)]
    have hcross : ∀ src, recorded tensors t = some src → ¬Crosses src (consumerDtype o) :=
      fun src hsrc h => hno ⟨src, hsrc, h⟩
    rcases htyped.inputs o ho t ht with hsrc | hsrc <;>
      rcases consumerDtype_eq o with hdst | hdst <;>
        have := hcross _ hsrc <;> simp_all [Crosses]

/-- A cast stands for its tensor, and any other name for itself. -/
theorem uncastName_out (hc : c ∈ casts) : uncastName casts c.out = c.tensor := by
  unfold uncastName
  split
  next c' hfound =>
    have heq : c'.out = c.out := by simpa using find?_some hfound
    exact (castName_inj heq).1
  next hnone => exact absurd (find?_eq_none.mp hnone c hc) (by simp)

theorem CastInv.uncastName_old (hinv : CastInv tensors scales least done rest s casts)
    (ht : t ∈ tensors.keys) : uncastName casts t = t := by
  have hnone : casts.find? (fun c => c.out = t) = none := by
    rw [find?_eq_none]
    intro c hc
    simpa using hinv.out_ne ht hc
  rw [uncastName, hnone]

theorem isCastOp_toOp (hc : c ∈ casts) : isCastOp casts c.toOp = true := by
  rw [isCastOp, any_eq_true]
  exact ⟨c, hc, decide_eq_true rfl⟩

section
variable (hinv : CastInv tensors scales least done rest s casts) (htyped : Typed done tensors)
include hinv htyped

theorem CastInv.isCastOp_rewritten (ho : o ∈ done) :
    isCastOp casts (rewritten tensors o) = false := by
  rw [isCastOp, any_eq_false]
  intro c hc hout
  have heq : o.outputs = [c.out] := of_decide_eq_true hout
  have hmem : c.out ∈ o.outputs := by
    rw [heq]
    exact mem_singleton_self _
  exact hinv.out_ne (mem_keys_of_recorded (htyped.outputs o ho _ hmem)) hc rfl

theorem CastInv.undone : undoCasts casts s.newOps = done := by
  rw [undoCasts, hinv.spliced.filter]
  case hmade => exact fun c hc => by rw [isCastOp_toOp hc, Bool.not_true]
  case hitem => exact fun o ho => by rw [hinv.isCastOp_rewritten htyped ho, Bool.not_false]
  rw [map_map]
  conv_rhs => rw [← map_id done]
  apply map_congr_left
  intro o ho
  have hback : o.inputs.map (uncastName casts ∘ readName tensors (consumerDtype o)) = o.inputs := by
    conv_rhs => rw [← map_id o.inputs]
    apply map_congr_left
    intro t ht
    rw [Function.comp_apply, id]
    rcases hinv.readName_cases ho ht with ⟨c, hc, htensor, -, heq⟩ | ⟨-, heq⟩
    · rw [heq, uncastName_out hc, htensor]
    · rw [heq, hinv.uncastName_old (htyped.mem_keys ho ht)]
  rw [Function.comp_apply, id, rewritten]
  simp only [map_map, hback]

end

theorem consumerDtype_toOp (h : Crosses c.src c.dst) :
    consumerDtype c.toOp = c.dst := by
  rcases h with ⟨-, hdst⟩ | ⟨-, hdst⟩
  · rw [consumerDtype, Cast.toOp, hdst]
    rfl
  · rw [consumerDtype, Cast.toOp, hdst]
    rfl

/-- The scale at which an int8 op reads a side of a cast is that of the cast. -/
theorem CastInv.read_eq (hinv : CastInv tensors scales least done rest s casts)
    (htyped : Typed done tensors) (htable : ReadsTable scales done) (hc : c ∈ casts) (ho : o ∈ done)
    (hint : consumerDtype o = .i8) {scale : κ} (hread : (t, scale) ∈ o.inputs.zip o.reads)
    (hside : readName tensors (consumerDtype o) t = c.int8Side) : scale = c.scale := by
  have hsource := hinv.sources c hc
  have ht := (of_mem_zip hread).1
  have hscale : scaleOf scales least t = scale := by
    rw [scaleOf, htable o ho hint _ hread]
    rfl
  have heq : t = c.tensor := by
    rw [Cast.int8Side] at hside
    rcases hinv.readName_cases ho ht with ⟨c', hc', htensor, hdst, hname⟩ | ⟨-, hname⟩
    · rw [hname] at hside
      split_ifs at hside
      · rw [← htensor]
        exact (castName_inj hside).1
      · -- The tensor of a cast is no output of another.
        exact absurd hside (hinv.out_ne hsource.mem_keys hc')
    · rw [hname] at hside
      split_ifs at hside
      · exact absurd hside.symm (hinv.out_ne (htyped.mem_keys ho ht) hc)
      · exact hside
  rw [hsource.scale, ← heq, hscale]

/-- The pass is right, where the names of its casts are free: every op but the casts reads its own
dtype, every op writes the dtype that is recorded, and there is one cast for a tensor and a dtype,
between the op that writes the tensor and those that read it. -/
theorem castConsistent_insertCasts (scales : PyDict String κ) (least : κ) (ops : List (MixedOp κ))
    (tensors : PyDict String (TensorMeta κ)) (hord : Ordered ops) (htyped : Typed ops tensors)
    (hfree : CastNamesFree ops tensors) (htable : ReadsTable scales ops) :
    ∃ casts, CastConsistent scales least ops (insertCasts scales least ops tensors).1
      (insertCasts scales least ops tensors).2 casts := by
  obtain ⟨casts, hinv⟩ := @exists_castInv κ tensors scales least ops hord htyped hfree
  refine ⟨casts, ?_⟩
  rw [insertCasts]
  generalize ops.foldl (Mixed.insertOp scales least) ⟨[], tensors, PyDict.empty⟩ = s at hinv ⊢
  exact {
    listed := hinv.spliced.filter_made (fun c hc => isCastOp_toOp hc)
      fun o ho => hinv.isCastOp_rewritten htyped ho
    inputs := by
      intro o' ho' hno t' ht'
      rcases hinv.spliced.mem_iff.mp ho' with ⟨c, hc, rfl⟩ | ⟨o, ho, rfl⟩
      · rw [isCastOp_toOp hc] at hno
        cases hno
      · obtain ⟨t, ht, rfl⟩ := mem_map.mp ht'
        exact hinv.recorded_readName htyped ho ht
    sources := by
      intro c hc
      have hsource := hinv.sources c hc
      obtain ⟨m, hm, hsrc, -⟩ := hsource.entry
      refine ⟨hsource.crosses, ?_, consumerDtype_toOp hsource.crosses⟩
      rw [hinv.recorded_old hsource.mem_keys, recorded, hm, hsrc]
      rfl
    outputs := by
      intro o' ho' t ht
      rcases hinv.spliced.mem_iff.mp ho' with ⟨c, hc, rfl⟩ | ⟨o, ho, rfl⟩
      · rw [mem_singleton.mp ht, hinv.recorded_out hc,
          consumerDtype_toOp (hinv.sources c hc).crosses]
      · have hout := htyped.outputs o ho t ht
        rw [hinv.recorded_old (mem_keys_of_recorded hout), hout, consumerDtype_rewritten]
    placed := hinv.placed
    once := hinv.once
    scale := fun c hc => (hinv.sources c hc).scale
    read := by
      rintro c hc o' ho' hint ⟨x, scale⟩ hread hside
      rcases hinv.spliced.mem_iff.mp ho' with ⟨c', hc', rfl⟩ | ⟨o, ho, rfl⟩
      · exact absurd hread (by simp [MixedOp.reads, Cast.toOp])
      · rw [rewritten, zip_map_left] at hread
        obtain ⟨⟨t, scale'⟩, hmem, heq⟩ := mem_map.mp hread
        obtain ⟨rfl, rfl⟩ := Prod.mk.inj heq
        exact hinv.read_eq htyped htable hc ho hint hmem hside
    undone := hinv.undone htyped }

end

/-! ### Small lists -/

theorem ordered_of_pairwise (hself : ∀ o ∈ ops, ∀ t ∈ o.inputs, t ∉ o.outputs)
    (hpairs : ops.Pairwise fun o o' => ∀ t ∈ o.inputs, t ∉ o'.outputs) : Ordered ops := by
  rintro pre o post rfl t ht o' ho'
  rcases mem_cons.mp ho' with rfl | hlater
  · exact hself o' (by simp) t ht
  · have hcons := (pairwise_append.mp hpairs).2.1
    exact (pairwise_cons.mp hcons).1 o' hlater t ht

/-- An op of a small list. -/
def smallOp (op : String) (precision : Precision) (inputs : List String) (output : String)
    (reads : List ℚ) : MixedOp ℚ where
  name := output
  op := op
  precision := some precision
  inputs := inputs
  outputs := [output]
  state := []
  weight := none
  bias := none
  weightHh := none
  biasHh := none
  size := none
  quant := .reads reads

/-- A tensor of four elements. -/
def smallTensor (dtype : Surface) : TensorMeta ℚ := ⟨[4], some dtype, none, false⟩

/-- An LSTM in half precision between int8 ops. Its output is read twice by one op, and viewed. -/
def islandOps : List (MixedOp ℚ) :=
  [smallOp "relu_s8" .int8 ["x"] "a" [], smallOp "lstm_f16" .fp16 ["a"] "h" [],
    smallOp "add_s8" .int8 ["h", "h"] "y" [2, 2], smallOp "view" .int8 ["h"] "v" [],
    smallOp "mul_s8" .int8 ["a", "v"] "z" [1, 2]]

def islandTensors : PyDict String (TensorMeta ℚ) where
  items := [("x", smallTensor .i8), ("a", smallTensor .i8), ("h", smallTensor .f16),
    ("y", smallTensor .i8), ("v", smallTensor .i8), ("z", smallTensor .i8)]
  nodup := by decide

def islandScales : PyDict String ℚ where
  items := [("x", 1), ("a", 1), ("h", 2), ("y", 3), ("v", 2), ("z", 4)]
  nodup := by decide

/-- Two casts are put in. -/
theorem castConsistent_island :
    (insertCasts islandScales (1 / 100000000) islandOps islandTensors).1.map MixedOp.name =
        ["a", "a__cast_f16", "h", "h__cast_i8", "y", "v", "z"] ∧
      ∃ casts, CastConsistent islandScales (1 / 100000000) islandOps
        (insertCasts islandScales (1 / 100000000) islandOps islandTensors).1
        (insertCasts islandScales (1 / 100000000) islandOps islandTensors).2 casts :=
  ⟨by decide, castConsistent_insertCasts _ _ _ _
    (ordered_of_pairwise (by decide) (by decide)) ⟨by decide, by decide⟩ (by decide) (by decide)⟩

/-- Only the LSTM is promoted. -/
theorem typed_promoteOps_island :
    let s := promoteOps (id : ℚ → ℚ) (· + ·) PyDict.empty
      (islandOps.map fun o => { o with precision := none }) ["h"]
      (islandTensors.set "h" (smallTensor .i8)) PyDict.empty
    Typed s.ops s.tensors :=
  typed_promoteOps (by decide) (by decide) (by decide)

/-- An op in half precision reads an int8 tensor. -/
def readerOps : List (MixedOp ℚ) := [smallOp "relu_f16" .fp16 ["x"] "y" []]

def readerTensors : PyDict String (TensorMeta ℚ) where
  items := [("x", smallTensor .i8), ("y", smallTensor .f16)]
  nodup := by decide

/-- An int8 op writes a tensor with the name of a cast. -/
def takenOps : List (MixedOp ℚ) :=
  [smallOp "sin_s8" .int8 ["x"] "x__cast_f16" [1], smallOp "relu_f16" .fp16 ["x"] "y" []]

def takenTensors : PyDict String (TensorMeta ℚ) where
  items := [("x", smallTensor .i8), ("x__cast_f16", smallTensor .i8), ("y", smallTensor .f16)]
  nodup := by decide

/-- The input of a cast is not in the dtype of the cast. The output of an op stays recorded in
another dtype than that of the op. A cast takes the place of a tensor with its name. -/
theorem not_castConsistent_literal :
    (Ordered readerOps ∧ Typed readerOps readerTensors ∧ ReadsTable islandScales readerOps ∧
      ¬∀ o ∈ (insertCasts islandScales (1 / 100000000) readerOps readerTensors).1,
        ∀ t ∈ o.inputs, recorded (insertCasts islandScales (1 / 100000000) readerOps
          readerTensors).2 t = some (consumerDtype o)) ∧
    (Ordered readerOps ∧ (∀ o ∈ readerOps, ∀ t ∈ o.inputs ++ o.outputs,
        recorded (readerTensors.set "y" (smallTensor .i8)) t = some .i8) ∧
      ¬∀ o ∈ (insertCasts islandScales (1 / 100000000) readerOps
          (readerTensors.set "y" (smallTensor .i8))).1,
        ∀ t ∈ o.outputs, recorded (insertCasts islandScales (1 / 100000000) readerOps
          (readerTensors.set "y" (smallTensor .i8))).2 t = some (consumerDtype o)) ∧
    (Ordered takenOps ∧ Typed takenOps takenTensors ∧ ReadsTable islandScales takenOps ∧
      ¬∀ o ∈ (insertCasts islandScales (1 / 100000000) takenOps takenTensors).1,
        ∀ t ∈ o.outputs, recorded (insertCasts islandScales (1 / 100000000) takenOps
          takenTensors).2 t = some (consumerDtype o)) :=
  ⟨⟨ordered_of_pairwise (by decide) (by decide), ⟨by decide, by decide⟩, by decide, by decide⟩,
    ⟨ordered_of_pairwise (by decide) (by decide), by decide, by decide⟩,
    ⟨ordered_of_pairwise (by decide) (by decide), ⟨by decide, by decide⟩, by decide, by decide⟩⟩

end ModelBlaster.Extract.Mixed

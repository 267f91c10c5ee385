import ModelBlaster.KernelFusion.Chain
import ModelBlaster.Library.LinearScan

/-!
# Composite kernels

A structural rewrite replaces some ops of a graph by one new op, which has no kernel yet. Its
composite kernel calls the kernels of the ops that it has replaced, one after the other. What the
new op has no pointer for is kept in a workspace, in which tensors are placed by a linear scan.

## Main definitions

* `absorbedNames`: the ops that a new op replaces;
* `aliases`, `resolveTensor`: views, and the tensors that they are views of;
* `boundRoots`: the tensors that the new op has pointers for;
* `touchAll`: when the other tensors are touched first and last;
* `plan`: the calls, the workspace, the masks to fill, and the guard;
* `rootIn`: the root of a tensor, with the offset in it;
* `ViewsSorted`: views are views of what is there before;
* `LifeSpec`: what the lifetimes say of the touches.

## Main results

* `resolveTensor_eq`: `resolveTensor` finds the root and the offset;
* `lifeSpec_of_touchAll`: they say it of all touches.
-/

namespace ModelBlaster.Composite

open KernelFusion

/-! ### Graphs -/

/-- The storage types of tensors. -/
inductive IrDtype where
  | f32
  | f16
  | bf16
  | i64
  | i32
  | b8
  | u8
deriving DecidableEq, Repr

/-- `ELEM_BYTES`: the table has `bool`, but not `b8`, which takes the default. -/
def elemBytes : IrDtype → ℕ
  | .f16 | .bf16 => 2
  | .f32 | .i32 => 4
  | .i64 => 8
  | .u8 => 1
  | .b8 => 4

/-- `BUFFER_BYTES` -/
def bufferBytes : IrDtype → ℕ
  | .f16 | .bf16 => 2
  | .f32 | .i32 => 4
  | .i64 => 8
  | .u8 | .b8 => 1

/-- An entry of the table of tensors. -/
structure TensorInfo where
  shape : List ℕ
  dtype : IrDtype
  /-- The name of the data of a constant. -/
  const : Option String
deriving DecidableEq

/-- The number of elements. -/
def TensorInfo.numel (info : TensorInfo) : ℕ := info.shape.prod

/-- The bytes that a plan counts for a tensor. -/
def TensorInfo.planBytes (info : TensorInfo) : ℕ := info.numel * elemBytes info.dtype

/-- A graph, as far as a composite looks at it. -/
structure BaseGraph where
  ops : List KernelOp
  tensors : PyDict String TensorInfo

/-- An op that a rewrite has made. -/
structure NewOp where
  op : KernelOp
  absorbed : List String := []
  folded : List String := []

/-- Why there is no composite, or how planning fails. -/
inductive PlanError where
  | noOps
  | bind (error : KernelError)
  | weight (op : String)
  | notVerified (tensor const : String)
  | notMask (tensor : String)
  | notProduced (op tensor : String)
  | tooLarge (bytes : ℕ)
  | keyError
  | indexError
deriving DecidableEq, Repr

/-- `absorbed_names` -/
def absorbedNames (new : NewOp) (base : List String) : List String :=
  let names := new.absorbed ++ new.folded.filter fun n => n ∉ new.absorbed
  let all := if new.op.name ∈ base ∧ new.op.name ∉ names then names ++ [new.op.name] else names
  all.filter fun n => n ∈ base

/-- The absorbed ops with a kernel, in the order of the graph. -/
def BaseGraph.kernelOps (g : BaseGraph) (new : NewOp) : List KernelOp :=
  let names := absorbedNames new (g.ops.map KernelOp.name)
  (g.ops.filter fun o => o.name ∈ names).filter fun o => o.op ≠ "view"

/-- The entry of a tensor. -/
def BaseGraph.info (g : BaseGraph) (t : String) : Except PlanError TensorInfo :=
  match g.tensors.get? t with
  | some info => .ok info
  | none => .error .keyError

/-! ### Views -/

/-- A table of views: what each is a view of, with its offset in elements. -/
abbrev Aliases : Type := PyDict String (String × ℤ)

/-- The entry of a view. -/
def aliasOf (o : KernelOp) : Except PlanError (String × String × ℤ) :=
  match o.outputs, o.inputs with
  | t :: _, s :: _ => .ok (t, s, o.offset.getD 0)
  | _, _ => .error .indexError

/-- The entries of the views, in the order of the graph. -/
def BaseGraph.viewList (g : BaseGraph) : Except PlanError (List (String × String × ℤ)) :=
  (g.ops.filter fun o => o.op = "view").mapM aliasOf

/-- `_aliases` -/
def aliases (g : BaseGraph) : Except PlanError Aliases := do
  let views ← g.viewList
  return PyDict.ofList views

/-- The loop of `_resolve`, which takes every view at most once. -/
def resolveFrom (al : Aliases) : ℕ → List String → String → ℤ → String × ℤ
  | 0, _, t, off => (t, off)
  | steps + 1, seen, t, off =>
    match al.get? t with
    | none => (t, off)
    | some (s, d) => if t ∈ seen then (t, off) else resolveFrom al steps (t :: seen) s (off + d)

/-- `_resolve` -/
def resolveTensor (al : Aliases) (t : String) : String × ℤ :=
  resolveFrom al al.keys.length [] t 0

/-! ### Binding -/

/-- `_bind_any` -/
def bindAny (specs : Specs) (o : KernelOp) : Except KernelError (List Arg) :=
  if o.subOps.isEmpty then bindOp specs o else bindFused specs o

/-- An op with its arguments, or why it has none. -/
def bindStageOp (specs : Specs) (o : KernelOp) : Except PlanError (KernelOp × List Arg) :=
  match bindAny specs o with
  | .ok args => .ok (o, args)
  | .error e => .error (.bind e)

/-- The tensor that an argument points to. -/
def pointee : ArgValue → Option String
  | .input t | .output t | .scratch t => some t
  | _ => none

/-- What a root is bound to: a parameter of the new op, with the offset of its tensor. -/
structure RootParam where
  param : String
  offset : ℤ
deriving DecidableEq, Repr

/-- The tensor of an argument of the new op, if the graph has it. -/
def knownPointee (g : BaseGraph) (a : Arg) : Option String :=
  (pointee a.value).filter fun t => t ∈ g.tensors.keys

/-- An argument of the new op is a pointer for its root, unless the root has one. -/
def bindRoot (g : BaseGraph) (al : Aliases) (roots : PyDict String RootParam) (a : Arg) :
    PyDict String RootParam :=
  match knownPointee g a with
  | none => roots
  | some t =>
    let r := resolveTensor al t
    if r.1 ∈ roots.keys then roots else roots.set r.1 ⟨a.param.name, r.2⟩

/-- The roots that the new op has pointers for. -/
def boundRoots (g : BaseGraph) (al : Aliases) (args : List Arg) : PyDict String RootParam :=
  args.foldl (bindRoot g al) PyDict.empty

/-! ### Lifetimes -/

/-- When the roots in the workspace are touched. -/
structure Lifetimes where
  first : PyDict String ℤ
  last : PyDict String ℤ
  /-- The constants. -/
  masks : PyDict String Unit

/-- An argument of an absorbed op, with the number of the op. -/
structure Touch where
  index : ℕ
  op : String
  arg : Arg

/-- The touches of the absorbed ops, in order. -/
def touches (stages : List (KernelOp × List Arg)) : List Touch :=
  stages.zipIdx.flatMap fun stage => stage.1.2.map fun a => ⟨stage.2, stage.1.1.name, a⟩

/-- The data of a constant. -/
def BaseGraph.constOf (g : BaseGraph) (t : String) : Option (String × TensorInfo) :=
  (g.tensors.get? t).bind fun info => info.const.map fun c => (c, info)

section
variable (g : BaseGraph) (al : Aliases) (roots : PyDict String RootParam) (verified : List String)

/-- A constant is touched. -/
def touchConst (st : Lifetimes) (r : String) (data : String × TensorInfo) :
    Except PlanError Lifetimes :=
  if data.1 ∉ verified then .error (.notVerified r data.1)
  else if data.2.dtype ≠ .f16 ∨ data.2.shape.length < 2 then .error (.notMask r)
  else .ok ⟨st.first.set r (-1), st.last.set r (2 ^ 30), st.masks.set r ()⟩

/-- A root in the workspace is touched. -/
def touchRoot (st : Lifetimes) (e : Touch) (t r : String) : Except PlanError Lifetimes :=
  match g.constOf r with
  | some data => touchConst verified st r data
  | none =>
    if e.arg.value = .input t ∧ r ∉ st.first.keys then .error (.notProduced e.op r)
    else .ok { st with
      first := if r ∈ st.first.keys then st.first else st.first.set r e.index
      last := st.last.set r e.index }

/-- One step of the loop over the arguments. -/
def touch (st : Lifetimes) (e : Touch) : Except PlanError Lifetimes :=
  match e.arg.value with
  | .weight _ => .error (.weight e.op)
  | .null | .scalar _ => .ok st
  | .input t | .output t | .scratch t =>
    let r := (resolveTensor al t).1
    if r ∈ roots.keys then .ok st else touchRoot g verified st e t r

/-- The lifetimes of the roots in the workspace. -/
def touchAll (stages : List (KernelOp × List Arg)) : Except PlanError Lifetimes :=
  (touches stages).foldlM (touch g al roots verified) ⟨PyDict.empty, PyDict.empty, PyDict.empty⟩

end

/-! ### Places -/

/-- The order in which roots are placed. -/
def placedBefore (first : PyDict String ℤ) (r r' : String) : Prop :=
  (first.get? r).getD 0 < (first.get? r').getD 0 ∨
    (first.get? r).getD 0 = (first.get? r').getD 0 ∧ r ≤ r'

instance (first : PyDict String ℤ) : DecidableRel (placedBefore first) := fun _ _ =>
  inferInstanceAs (Decidable (_ ∨ _))

/-- A size, rounded up to `ALIGN`. -/
def aligned (bytes : ℕ) : ℕ := (bytes + 255) / 256 * 256

/-- A root, as the linear scan takes it. -/
def scanItem (g : BaseGraph) (lives : Lifetimes) (r : String) :
    Except PlanError (LinearScan.Item String) := do
  let info ← g.info r
  return ⟨r, (lives.first.get? r).getD 0, (lives.last.get? r).getD 0, aligned info.planBytes⟩

/-- The blocks of the workspace. -/
def placeRoots (g : BaseGraph) (lives : Lifetimes) :
    Except PlanError (List (LinearScan.Block String)) := do
  let items ← (lives.first.keys.insertionSort (placedBefore lives.first)).mapM (scanItem g lives)
  return LinearScan.placeAll items

/-- The places of the roots. -/
def placeOf (blocks : List (LinearScan.Block String)) : PyDict String ℕ :=
  PyDict.ofList (blocks.map fun b => (b.item.key, b.start))

/-! ### Calls -/

/-- What is passed for a pointer: a parameter of the new op, or the workspace, and a number of bytes
behind it. -/
inductive PtrExpr where
  | param (name : String) (bytes : ℤ)
  | ws (bytes : ℤ)
deriving DecidableEq, Repr

/-- What is passed for a parameter of a kernel. -/
inductive CallArg where
  | ptr (ctype : CType) (e : PtrExpr)
  | nullptr (ctype : CType)
  | scalar (ctype : CType) (v : FieldValue)
deriving DecidableEq, Repr

section
variable (g : BaseGraph) (al : Aliases) (roots : PyDict String RootParam) (places : PyDict String ℕ)

/-- `expr` -/
def ptrExpr (t : String) : Except PlanError PtrExpr := do
  let r := resolveTensor al t
  let info ← g.info r.1
  match roots.get? r.1, places.get? r.1 with
  | some p, _ => return .param p.param ((r.2 - p.offset) * elemBytes info.dtype)
  | none, some start => return .ws (start + r.2 * elemBytes info.dtype)
  | none, none => .error .keyError

/-- What is passed for an argument. -/
def callArg (a : Arg) : Except PlanError CallArg :=
  match a.value with
  | .input t | .output t | .scratch t => do
    let e ← ptrExpr g al roots places t
    return .ptr a.param.ctype e
  | .null => .ok (.nullptr a.param.ctype)
  | .weight v | .scalar v => .ok (.scalar a.param.ctype v)

/-- The call of an absorbed op. -/
def stageCall (stage : KernelOp × List Arg) : Except PlanError (KernelOp × List CallArg) := do
  let args ← stage.2.mapM (callArg g al roots places)
  return (stage.1, args)

end

/-! ### Plans -/

/-- A mask in the workspace. -/
structure Fill where
  start : ℕ
  numel : ℕ
  rows : ℕ
  cols : ℕ
deriving DecidableEq, Repr

/-- The mask of a root: its last two sizes are the rows and the columns. -/
def fillOf (g : BaseGraph) (places : PyDict String ℕ) (r : String) : Except PlanError Fill := do
  let info ← g.info r
  match places.get? r, info.shape.reverse with
  | some start, cols :: rows :: _ => return ⟨start, info.numel, rows, cols⟩
  | none, _ => .error .keyError
  | some _, _ => .error .indexError

/-- The integers among the scalars of the new op. -/
def guardOf (a : Arg) : Option (Param × FieldValue) :=
  match a.value with
  | .scalar v =>
    if a.param.ctype.base ∈ ["int", "long", "int64_t", "size_t"] then some (a.param, v) else none
  | _ => none

/-- The region of a root in the workspace. -/
def regionOf (g : BaseGraph) (block : LinearScan.Block String) :
    Except PlanError (String × ℕ × ℕ) := do
  let info ← g.info block.item.key
  return (block.item.key, block.start, info.planBytes)

/-- What `plan` returns. -/
structure CompositePlan where
  calls : List (KernelOp × List CallArg)
  wsBytes : ℕ
  fills : List Fill
  guard : List (Param × FieldValue)
  stages : List String
  stageKinds : List String
  workspace : List (String × ℕ × ℕ)

/-- The plan, when ops are bound and views are known. -/
def planFor (g : BaseGraph) (verified : List String) (cap : ℕ) (al : Aliases)
    (newArgs : List Arg) (stages : List (KernelOp × List Arg)) :
    Except PlanError CompositePlan := do
  let roots := boundRoots g al newArgs
  let lives ← touchAll g al roots verified stages
  let blocks ← placeRoots g lives
  if LinearScan.extent blocks ≤ cap then do
    let calls ← stages.mapM (stageCall g al roots (placeOf blocks))
    let fills ← lives.masks.keys.mapM (fillOf g (placeOf blocks))
    let workspace ← blocks.mapM (regionOf g)
    return {
      calls := calls
      wsBytes := LinearScan.extent blocks
      fills := fills
      guard := newArgs.filterMap guardOf
      stages := stages.map fun stage => stage.1.name
      stageKinds := stages.map fun stage => stage.1.op
      workspace := workspace }
  else .error (.tooLarge (LinearScan.extent blocks))

/-- `plan` -/
def plan (g : BaseGraph) (new : NewOp) (specs : Specs) (verified : List String) (cap : ℕ) :
    Except PlanError CompositePlan :=
  match g.kernelOps new with
  | [] => .error .noOps
  | o :: rest => do
    let al ← aliases g
    let newArgs ← bindStageOp specs new.op
    let stages ← (o :: rest).mapM (bindStageOp specs)
    planFor g verified cap al newArgs.2 stages

/-! ## Views -/

open List PyDict Function

/-- One view is added to the table of the export. -/
def addView (al : Aliases) (v : String × String × ℤ) : Aliases :=
  let s := (al.get? v.2.1).getD (v.2.1, 0)
  al.set v.1 (s.1, s.2 + v.2.2)

/-- The views as the export follows them: each with its root, and its offset in the root. -/
def exportAlias (views : List (String × String × ℤ)) : Aliases := views.foldl addView PyDict.empty

/-- The root of a tensor, with the offset in it. -/
def rootIn (views : List (String × String × ℤ)) (t : String) : String × ℤ :=
  ((exportAlias views).get? t).getD (t, 0)

/-- Views have different names, and are views of what is there before. -/
structure ViewsSorted (views : List (String × String × ℤ)) : Prop where
  names : (views.map Prod.fst).Nodup
  order : views.Pairwise fun v w => v.2.1 ≠ w.1
  noSelf : ∀ v ∈ views, v.2.1 ≠ v.1

section
variable {views : List (String × String × ℤ)} {v : String × String × ℤ} {t : String}

theorem ViewsSorted.init (h : ViewsSorted (views ++ [v])) : ViewsSorted views where
  names := by
    have hnames := h.names
    rw [map_append] at hnames
    exact hnames.of_append_left
  order := (pairwise_append.mp h.order).1
  noSelf := fun w hw => h.noSelf w (mem_append_left _ hw)

theorem ViewsSorted.notMem_last (h : ViewsSorted (views ++ [v])) : v.1 ∉ views.map Prod.fst := by
  have hnames := h.names
  rw [map_append, nodup_append] at hnames
  exact fun hmem => hnames.2.2 v.1 hmem v.1 (by simp) rfl

/-- No view in front is a view of the last. -/
theorem ViewsSorted.source_ne_last (h : ViewsSorted (views ++ [v])) {w : String × String × ℤ}
    (hw : w ∈ views) : w.2.1 ≠ v.1 :=
  (pairwise_append.mp h.order).2.2 w hw v (by simp)

/-- Views can be ranked: each is above what it is a view of. -/
theorem ViewsSorted.exists_rank (h : ViewsSorted views) :
    ∃ rank : String → ℕ, (∀ t, rank t ≤ views.length) ∧ ∀ v ∈ views, rank v.2.1 < rank v.1 := by
  induction views using reverseRecOn with
  | nil => exact ⟨fun _ => 0, fun _ => le_rfl, fun v hv => by cases hv⟩
  | append_singleton views v ih =>
    obtain ⟨rank, hle, hlt⟩ := ih h.init
    -- the last view is put on top of all others
    refine ⟨Function.update rank v.1 (views.length + 1), fun t => ?_, fun w hw => ?_⟩
    · rw [length_append, length_singleton]
      by_cases ht : t = v.1
      · rw [ht, update_self]
      · rw [update_of_ne ht]
        exact (hle t).trans (Nat.le_succ _)
    · rcases mem_append.mp hw with hold | hlast
      · have hne : w.1 ≠ v.1 := fun heq =>
          h.notMem_last (heq ▸ mem_map_of_mem (f := Prod.fst) hold)
        rw [update_of_ne hne, update_of_ne (h.source_ne_last hold)]
        exact hlt w hold
      · obtain rfl := mem_singleton.mp hlast
        rw [update_self, update_of_ne (h.noSelf w (by simp))]
        exact Nat.lt_succ_of_le (hle _)

/-- Some of the views are views of what is there before. -/
theorem ViewsSorted.sublist {kept : List (String × String × ℤ)} (h : ViewsSorted views)
    (hsub : kept.Sublist views) : ViewsSorted kept where
  names := h.names.sublist (hsub.map Prod.fst)
  order := h.order.sublist hsub
  noSelf := fun v hv => h.noSelf v (hsub.subset hv)

/-! ### The table of the export -/

theorem exportAlias_append_single (views : List (String × String × ℤ)) (v : String × String × ℤ) :
    exportAlias (views ++ [v]) = addView (exportAlias views) v := by
  unfold exportAlias
  rw [foldl_append]
  rfl

theorem rootIn_append_self (views : List (String × String × ℤ)) (v : String × String × ℤ) :
    rootIn (views ++ [v]) v.1 = ((rootIn views v.2.1).1, (rootIn views v.2.1).2 + v.2.2) := by
  unfold rootIn
  rw [exportAlias_append_single, addView, get?_set_self]
  rfl

theorem rootIn_append_of_ne (h : t ≠ v.1) : rootIn (views ++ [v]) t = rootIn views t := by
  unfold rootIn
  rw [exportAlias_append_single, addView, get?_set_of_ne _ _ h]

/-- What is no view is its own root. -/
theorem rootIn_of_notMem (h : t ∉ views.map Prod.fst) : rootIn views t = (t, 0) := by
  induction views using reverseRecOn with
  | nil => rfl
  | append_singleton views v ih =>
    rw [map_append, mem_append, not_or] at h
    rw [rootIn_append_of_ne fun heq => h.2 (by simp [heq])]
    exact ih h.1

/-- A view has the root of what it is a view of. -/
theorem rootIn_of_mem (hviews : ViewsSorted views) {s : String} {d : ℤ} (h : (t, s, d) ∈ views) :
    rootIn views t = ((rootIn views s).1, (rootIn views s).2 + d) := by
  induction views using reverseRecOn with
  | nil => cases h
  | append_singleton views v ih =>
    rcases mem_append.mp h with hold | hlast
    · have hne : t ≠ v.1 := fun heq =>
        hviews.notMem_last (heq ▸ mem_map_of_mem (f := Prod.fst) hold)
      rw [rootIn_append_of_ne hne, rootIn_append_of_ne (hviews.source_ne_last hold)]
      exact ih hviews.init hold
    · obtain rfl := mem_singleton.mp hlast
      rw [rootIn_append_self, rootIn_append_of_ne (hviews.noSelf _ h)]

/-- What is kept from a view to what it is a view of is kept to the root. -/
theorem rootIn_induction {P : String → Prop} (hviews : ViewsSorted views)
    (hstep : ∀ v ∈ views, P v.1 → P v.2.1) (h : P t) : P (rootIn views t).1 := by
  induction views using reverseRecOn generalizing t with
  | nil => exact h
  | append_singleton views v ih =>
    have hinit := fun w hw => hstep w (mem_append_left [v] hw)
    by_cases hne : t = v.1
    · subst hne
      rw [rootIn_append_self]
      exact ih hviews.init hinit (hstep v (by simp) h)
    · rw [rootIn_append_of_ne hne]
      exact ih hviews.init hinit h

/-! ### The way back -/

theorem get?_ofList_append_of_ne (h : t ≠ v.1) :
    (PyDict.ofList (views ++ [v])).get? t = (PyDict.ofList views).get? t := by
  rw [get?_ofList_append_single, if_neg h]

/-- The last view is not on the way of another tensor. -/
theorem resolveFrom_append_of_ne (hviews : ViewsSorted (views ++ [v])) (h : t ≠ v.1) (steps : ℕ)
    (seen : List String) (off : ℤ) :
    resolveFrom (PyDict.ofList (views ++ [v])) steps seen t off =
      resolveFrom (PyDict.ofList views) steps seen t off := by
  induction steps generalizing seen t off with
  | zero => rfl
  | succ steps ih =>
    rw [resolveFrom, resolveFrom, get?_ofList_append_of_ne h]
    cases hget : (PyDict.ofList views).get? t with
    | none => rfl
    | some sd =>
      have hmem : (t, sd) ∈ views := mem_of_get?_ofList hget
      show ite _ _ _ = ite _ _ _
      rw [ih (hviews.source_ne_last hmem)]

/-- The way back ends at the root, and adds up the offset. -/
theorem resolveFrom_eq (hviews : ViewsSorted views) {steps : ℕ} (hsteps : views.length ≤ steps)
    {seen : List String} (hseen : ∀ x ∈ seen, x ∉ views.map Prod.fst) (off : ℤ) :
    resolveFrom (PyDict.ofList views) steps seen t off =
      ((rootIn views t).1, off + (rootIn views t).2) := by
  induction views using reverseRecOn generalizing t steps seen off with
  | nil =>
    have hroot : rootIn [] t = (t, 0) := rfl
    rw [hroot, add_zero]
    cases steps with
    | zero => rfl
    | succ steps => rfl
  | append_singleton views v ih =>
    have hseen' : ∀ x ∈ seen, x ∉ views.map Prod.fst := by
      intro x hx hmem
      refine hseen x hx ?_
      rw [map_append]
      exact mem_append_left _ hmem
    rw [length_append, length_singleton] at hsteps
    by_cases hne : t = v.1
    · subst hne
      obtain ⟨steps, rfl⟩ : ∃ n, steps = n + 1 := ⟨steps - 1, by omega⟩
      obtain ⟨k, s, d⟩ := v
      have hlast : (PyDict.ofList (views ++ [(k, s, d)])).get? k = some (s, d) := by
        rw [get?_ofList_append_single, if_pos rfl]
      have hfresh : k ∉ seen := fun hin => hseen k hin (by simp)
      rw [resolveFrom, hlast]
      show ite _ _ _ = _
      have hseen'' : ∀ x ∈ k :: seen, x ∉ views.map Prod.fst := by
        intro x hx
        rcases mem_cons.mp hx with rfl | hold
        · exact hviews.notMem_last
        · exact hseen' x hold
      rw [if_neg hfresh, resolveFrom_append_of_ne hviews (hviews.noSelf (k, s, d) (by simp)),
        ih hviews.init (by omega) hseen'', rootIn_append_self views (k, s, d), Prod.mk.injEq]
      refine ⟨rfl, ?_⟩
      show off + d + _ = off + (_ + d)
      omega
    · rw [resolveFrom_append_of_ne hviews hne, ih hviews.init (by omega) hseen',
        rootIn_append_of_ne hne]

/-- `_resolve` finds the root and the offset. -/
theorem resolveTensor_eq (hviews : ViewsSorted views) (t : String) :
    resolveTensor (PyDict.ofList views) t = rootIn views t := by
  have hlen : views.length ≤ (PyDict.ofList views).keys.length := by
    show _ ≤ ((PyDict.ofList views).items.map Prod.fst).length
    rw [items_ofList hviews.names, length_map]
  unfold resolveTensor
  rw [resolveFrom_eq hviews hlen (fun x hx => by cases hx), zero_add]

end

/-! ## Lifetimes and places -/

open Fallible

/-! ### Bound roots -/

section
variable {g : BaseGraph} {al : Aliases}

/-- An argument of the new op has a pointer into a root. -/
def PointsTo (g : BaseGraph) (al : Aliases) (a : Arg) (r : String) (off : ℤ) : Prop :=
  ∃ t, knownPointee g a = some t ∧ resolveTensor al t = (r, off)

theorem boundRoots_append_single (args : List Arg) (a : Arg) :
    boundRoots g al (args ++ [a]) = bindRoot g al (boundRoots g al args) a := by
  unfold boundRoots
  rw [foldl_append]
  rfl

variable {args : List Arg} {r : String}

/-- A root is bound to the first argument that points into it. -/
theorem get?_boundRoots {p : RootParam} (h : (boundRoots g al args).get? r = some p) :
    ∃ a ∈ args, PointsTo g al a r p.offset ∧ p.param = a.param.name := by
  induction args using reverseRecOn with
  | nil => cases h
  | append_singleton args a ih =>
    have hold : (boundRoots g al args).get? r = some p →
        ∃ a' ∈ args ++ [a], PointsTo g al a' r p.offset ∧ p.param = a'.param.name := by
      intro hget
      obtain ⟨a', ha', hrest⟩ := ih hget
      exact ⟨a', mem_append_left _ ha', hrest⟩
    rw [boundRoots_append_single] at h
    unfold bindRoot at h
    split at h
    case h_1 => exact hold h
    case h_2 t ht =>
      dsimp only at h
      split at h
      case isTrue => exact hold h
      case isFalse =>
        rw [get?_set] at h
        split at h
        case isTrue heq =>
          obtain rfl := Option.some.inj h
          exact ⟨a, by simp, ⟨t, ht, by rw [heq]⟩, rfl⟩
        case isFalse => exact hold h

/-- All roots are bound that an argument points into. -/
theorem mem_keys_boundRoots :
    r ∈ (boundRoots g al args).keys ↔ ∃ a ∈ args, ∃ off, PointsTo g al a r off := by
  constructor
  · intro h
    obtain ⟨p, hget⟩ := mem_keys_iff.mp h
    obtain ⟨a, ha, hpoints, -⟩ := get?_boundRoots hget
    exact ⟨a, ha, p.offset, hpoints⟩
  · rintro ⟨a, ha, off, t, ht, hroot⟩
    induction args using reverseRecOn with
    | nil => cases ha
    | append_singleton args b ih =>
      have hgrow : ∀ r, r ∈ (boundRoots g al args).keys →
          r ∈ (boundRoots g al (args ++ [b])).keys := by
        intro r hr
        rw [boundRoots_append_single]
        unfold bindRoot
        split
        case h_1 => exact hr
        case h_2 =>
          dsimp only
          split
          case isTrue => exact hr
          case isFalse => exact mem_keys_set.mpr (.inr hr)
      rcases mem_append.mp ha with hold | hlast
      · exact hgrow r (ih hold)
      · obtain rfl := mem_singleton.mp hlast
        rw [boundRoots_append_single]
        unfold bindRoot
        simp only [ht, hroot]
        split
        case isTrue hin => exact hin
        case isFalse => exact mem_keys_set.mpr (.inl rfl)

end

/-! ### Touches -/

/-- The argument points into a root. -/
def Touch.Touches (al : Aliases) (e : Touch) (r : String) : Prop :=
  ∃ t, pointee e.arg.value = some t ∧ (resolveTensor al t).1 = r

/-- The argument is written through, into a root. -/
def Touch.Writes (al : Aliases) (e : Touch) (r : String) : Prop :=
  ∃ t, (e.arg.value = .output t ∨ e.arg.value = .scratch t) ∧ (resolveTensor al t).1 = r

theorem mem_touches {stages : List (KernelOp × List Arg)} {e : Touch} :
    e ∈ touches stages ↔ ∃ stage, stages[e.index]? = some stage ∧ e.op = stage.1.name ∧
      e.arg ∈ stage.2 := by
  unfold touches
  rw [mem_flatMap]
  constructor
  · rintro ⟨⟨stage, i⟩, hstage, hmem⟩
    obtain ⟨a, ha, rfl⟩ := mem_map.mp hmem
    exact ⟨stage, mem_zipIdx_iff_getElem?.mp hstage, rfl, ha⟩
  · rintro ⟨stage, hget, hop, harg⟩
    refine ⟨(stage, e.index), mem_zipIdx_iff_getElem?.mpr hget, ?_⟩
    exact mem_map.mpr ⟨e.arg, harg, by rw [← hop]⟩

/-- Touches come in the order of the ops. -/
theorem pairwise_touches (stages : List (KernelOp × List Arg)) :
    (touches stages).Pairwise fun e e' => e.index ≤ e'.index := by
  unfold touches
  rw [pairwise_flatMap]
  constructor
  · intro stage _
    rw [pairwise_map]
    exact pairwise_of_forall fun _ _ => le_refl _
  · have hlt : (stages.zipIdx.map Prod.snd).Pairwise (· < ·) := by
      rw [zipIdx_map_snd]
      exact pairwise_lt_range'
    rw [pairwise_map] at hlt
    refine hlt.imp fun {s s'} hindex e he e' he' => ?_
    obtain ⟨a, -, rfl⟩ := mem_map.mp he
    obtain ⟨a', -, rfl⟩ := mem_map.mp he'
    exact le_of_lt hindex

section
variable {g : BaseGraph} {al : Aliases} {roots : PyDict String RootParam} {verified : List String}

/-- What is checked of a constant. -/
structure MaskSpec (verified : List String) (data : String × TensorInfo) : Prop where
  verified : data.1 ∈ verified
  dtype : data.2.dtype = .f16
  dims : 2 ≤ data.2.shape.length

/-- What the lifetimes say of the touches that are done. -/
structure LifeSpec (g : BaseGraph) (al : Aliases) (roots : PyDict String RootParam)
    (verified : List String) (done : List Touch) (st : Lifetimes) : Prop where
  weights : ∀ e ∈ done, ∀ key, e.arg.value ≠ .weight key
  masks : ∀ e ∈ done, ∀ r, e.Touches al r → r ∉ roots.keys → ∀ data, g.constOf r = some data →
    MaskSpec verified data ∧ st.first.get? r = some (-1) ∧ st.last.get? r = some (2 ^ 30) ∧
      r ∈ st.masks.keys
  spans : ∀ e ∈ done, ∀ r, e.Touches al r → r ∉ roots.keys → g.constOf r = none →
    ∃ f l : ℤ, st.first.get? r = some f ∧ st.last.get? r = some l ∧ f ≤ e.index ∧ e.index ≤ l
  /-- A root is first touched by one of the touches. -/
  firsts : ∀ r f, st.first.get? r = some f → r ∉ roots.keys ∧
    ∃ e ∈ done, e.Touches al r ∧ (g.constOf r = none → f = e.index)
  maskKeys : ∀ r ∈ st.masks.keys, (g.constOf r).isSome ∧ r ∈ st.first.keys
  written : ∀ r ∈ st.first.keys, g.constOf r = none → ∃ e ∈ done, e.Writes al r
  /-- What is read has been written by a touch in front. -/
  produced : ∀ pre e post, done = pre ++ e :: post → ∀ t, e.arg.value = .input t →
    (resolveTensor al t).1 ∉ roots.keys → g.constOf (resolveTensor al t).1 = none →
      ∃ e' ∈ pre, e'.Writes al (resolveTensor al t).1

variable {done : List Touch} {st : Lifetimes} {e : Touch} {t : String}

theorem Touch.touches_iff (h : pointee e.arg.value = some t) {r : String} :
    e.Touches al r ↔ (resolveTensor al t).1 = r := by
  unfold Touch.Touches
  rw [h]
  simp

/-- The touch that is split off is the last, or one before. -/
theorem split_append_single {l pre post : List Touch} {x y : Touch}
    (h : l ++ [x] = pre ++ y :: post) : (pre = l ∧ y = x) ∨ ∃ post', l = pre ++ y :: post' := by
  rcases eq_nil_or_concat post with rfl | ⟨post', z, rfl⟩
  · obtain ⟨hl, hx⟩ := append_inj' h rfl
    exact .inl ⟨hl.symm, (singleton_inj.mp hx).symm⟩
  · rw [concat_eq_append, ← cons_append, ← append_assoc] at h
    exact .inr ⟨post', (append_inj' h rfl).1⟩

section
variable (h : LifeSpec g al roots verified done st)
include h

/-- A touch of nothing that is in the workspace. -/
theorem LifeSpec.idle (hweight : ∀ key, e.arg.value ≠ .weight key)
    (hroots : ∀ r, e.Touches al r → r ∈ roots.keys) :
    LifeSpec g al roots verified (done ++ [e]) st where
  weights e' he' := by
    rcases mem_append.mp he' with hold | hlast
    · exact h.weights e' hold
    · rw [mem_singleton.mp hlast]
      exact hweight
  masks e' he' r htouch hr := by
    rcases mem_append.mp he' with hold | hlast
    · exact h.masks e' hold r htouch hr
    · rw [mem_singleton.mp hlast] at htouch
      exact absurd (hroots r htouch) hr
  spans e' he' r htouch hr := by
    rcases mem_append.mp he' with hold | hlast
    · exact h.spans e' hold r htouch hr
    · rw [mem_singleton.mp hlast] at htouch
      exact absurd (hroots r htouch) hr
  firsts r f hf := by
    obtain ⟨hr, e', he', hrest⟩ := h.firsts r f hf
    exact ⟨hr, e', mem_append_left _ he', hrest⟩
  maskKeys := h.maskKeys
  written r hr hconst := by
    obtain ⟨e', he', hwrites⟩ := h.written r hr hconst
    exact ⟨e', mem_append_left _ he', hwrites⟩
  produced pre e' post hsplit u hu hr hconst := by
    rcases split_append_single hsplit with ⟨rfl, rfl⟩ | ⟨post', hold⟩
    · exact absurd (hroots _ ⟨u, by rw [hu]; rfl, rfl⟩) hr
    · exact h.produced pre e' post' hold u hu hr hconst

/-- A touch of a constant. -/
theorem LifeSpec.const (ht : pointee e.arg.value = some t)
    (hroot : (resolveTensor al t).1 ∉ roots.keys) {data : String × TensorInfo}
    (hconst : g.constOf (resolveTensor al t).1 = some data) (hmask : MaskSpec verified data) :
    LifeSpec g al roots verified (done ++ [e]) ⟨st.first.set (resolveTensor al t).1 (-1),
      st.last.set (resolveTensor al t).1 (2 ^ 30), st.masks.set (resolveTensor al t).1 ()⟩ where
  weights e' he' key hkey := by
    rcases mem_append.mp he' with hold | hlast
    · exact h.weights e' hold key hkey
    · rw [← mem_singleton.mp hlast, hkey] at ht
      cases ht
  masks e' he' r htouch hr data' hdata' := by
    by_cases heq : r = (resolveTensor al t).1
    · subst heq
      obtain rfl := Option.some.inj (hconst.symm.trans hdata')
      exact ⟨hmask, get?_set_self _ _ _, get?_set_self _ _ _, mem_keys_set.mpr (.inl rfl)⟩
    · rcases mem_append.mp he' with hold | hlast
      · obtain ⟨hspec, hf, hl, hm⟩ := h.masks e' hold r htouch hr data' hdata'
        refine ⟨hspec, ?_, ?_, mem_keys_set.mpr (.inr hm)⟩
        · rwa [get?_set_of_ne _ _ heq]
        · rwa [get?_set_of_ne _ _ heq]
      · rw [mem_singleton.mp hlast, Touch.touches_iff ht] at htouch
        exact absurd htouch.symm heq
  spans e' he' r htouch hr hnone := by
    have heq : r ≠ (resolveTensor al t).1 := by
      rintro rfl
      rw [hconst] at hnone
      cases hnone
    rcases mem_append.mp he' with hold | hlast
    · obtain ⟨f, l, hf, hl, hle⟩ := h.spans e' hold r htouch hr hnone
      refine ⟨f, l, ?_, ?_, hle⟩
      · rwa [get?_set_of_ne _ _ heq]
      · rwa [get?_set_of_ne _ _ heq]
    · rw [mem_singleton.mp hlast, Touch.touches_iff ht] at htouch
      exact absurd htouch.symm heq
  firsts r f hf := by
    by_cases heq : r = (resolveTensor al t).1
    · subst heq
      refine ⟨hroot, e, by simp, (Touch.touches_iff ht).mpr rfl, fun hnone => ?_⟩
      rw [hconst] at hnone
      cases hnone
    · rw [get?_set_of_ne _ _ heq] at hf
      obtain ⟨hr, e', he', hrest⟩ := h.firsts r f hf
      exact ⟨hr, e', mem_append_left _ he', hrest⟩
  maskKeys r hr := by
    rcases mem_keys_set.mp hr with rfl | hold
    · exact ⟨by rw [hconst]; rfl, mem_keys_set.mpr (.inl rfl)⟩
    · obtain ⟨hsome, hfirst⟩ := h.maskKeys r hold
      exact ⟨hsome, mem_keys_set.mpr (.inr hfirst)⟩
  written r hr hnone := by
    rcases mem_keys_set.mp hr with rfl | hold
    · rw [hconst] at hnone
      cases hnone
    · obtain ⟨e', he', hwrites⟩ := h.written r hold hnone
      exact ⟨e', mem_append_left _ he', hwrites⟩
  produced pre e' post hsplit u hu hr hnone := by
    rcases split_append_single hsplit with ⟨rfl, rfl⟩ | ⟨post', hold⟩
    · rw [hu] at ht
      obtain rfl := Option.some.inj ht
      rw [hconst] at hnone
      cases hnone
    · exact h.produced pre e' post' hold u hu hr hnone

/-- A touch of a tensor in the workspace. -/
theorem LifeSpec.plain (horder : ∀ e' ∈ done, e'.index ≤ e.index)
    (ht : pointee e.arg.value = some t) (hroot : (resolveTensor al t).1 ∉ roots.keys)
    (hconst : g.constOf (resolveTensor al t).1 = none)
    (hread : e.arg.value = .input t → (resolveTensor al t).1 ∈ st.first.keys) :
    LifeSpec g al roots verified (done ++ [e]) { st with
      first := if (resolveTensor al t).1 ∈ st.first.keys then st.first
        else st.first.set (resolveTensor al t).1 e.index
      last := st.last.set (resolveTensor al t).1 e.index } := by
  -- an earlier first touch stays
  have hfirst : ∀ r f, st.first.get? r = some f →
      (if (resolveTensor al t).1 ∈ st.first.keys then st.first
        else st.first.set (resolveTensor al t).1 (e.index : ℤ)).get? r = some f := by
    intro r f hf
    have hin : r ∈ st.first.keys := mem_keys_of_get? hf
    split
    case isTrue => exact hf
    case isFalse hnew =>
      have hne : r ≠ (resolveTensor al t).1 := fun heq => hnew (by rw [← heq]; exact hin)
      rwa [get?_set_of_ne _ _ hne]
  constructor
  case weights =>
    intro e' he' key hkey
    rcases mem_append.mp he' with hold | hlast
    · exact h.weights e' hold key hkey
    · rw [← mem_singleton.mp hlast, hkey] at ht
      cases ht
  case masks =>
    intro e' he' r htouch hr data hdata
    have heq : r ≠ (resolveTensor al t).1 := by
      rintro rfl
      rw [hconst] at hdata
      cases hdata
    rcases mem_append.mp he' with hold | hlast
    · obtain ⟨hspec, hf, hl, hm⟩ := h.masks e' hold r htouch hr data hdata
      refine ⟨hspec, hfirst r _ hf, ?_, hm⟩
      rwa [get?_set_of_ne _ _ heq]
    · rw [mem_singleton.mp hlast, Touch.touches_iff ht] at htouch
      exact absurd htouch.symm heq
  case spans =>
    intro e' he' r htouch hr hnone
    rcases mem_append.mp he' with hold | hlast
    · obtain ⟨f, l, hf, hl, hle, hle'⟩ := h.spans e' hold r htouch hr hnone
      by_cases heq : r = (resolveTensor al t).1
      · subst heq
        refine ⟨f, e.index, hfirst _ f hf, get?_set_self _ _ _, hle, ?_⟩
        exact_mod_cast horder e' hold
      · refine ⟨f, l, hfirst r f hf, ?_, hle, hle'⟩
        rwa [get?_set_of_ne _ _ heq]
    · obtain rfl := mem_singleton.mp hlast
      obtain rfl := (Touch.touches_iff ht).mp htouch
      by_cases hin : (resolveTensor al t).1 ∈ st.first.keys
      · obtain ⟨f, hf⟩ := mem_keys_iff.mp hin
        obtain ⟨-, e₁, he₁, -, hindex⟩ := h.firsts _ f hf
        refine ⟨f, e'.index, hfirst _ f hf, get?_set_self _ _ _, ?_, le_refl _⟩
        rw [hindex hconst]
        exact_mod_cast horder e₁ he₁
      · refine ⟨e'.index, e'.index, ?_, get?_set_self _ _ _, le_refl _, le_refl _⟩
        rw [if_neg hin]
        exact get?_set_self _ _ _
  case firsts =>
    intro r f hf
    have hold : st.first.get? r = some f → r ∉ roots.keys ∧
        ∃ e' ∈ done ++ [e], e'.Touches al r ∧ (g.constOf r = none → f = e'.index) := by
      intro hget
      obtain ⟨hr, e', he', hrest⟩ := h.firsts r f hget
      exact ⟨hr, e', mem_append_left _ he', hrest⟩
    split at hf
    case isTrue => exact hold hf
    case isFalse =>
      by_cases heq : r = (resolveTensor al t).1
      · subst heq
        rw [get?_set_self] at hf
        exact ⟨hroot, e, by simp, (Touch.touches_iff ht).mpr rfl,
          fun _ => (Option.some.inj hf).symm⟩
      · rw [get?_set_of_ne _ _ heq] at hf
        exact hold hf
  case maskKeys =>
    intro r hr
    obtain ⟨hsome, hin⟩ := h.maskKeys r hr
    obtain ⟨f, hf⟩ := mem_keys_iff.mp hin
    exact ⟨hsome, mem_keys_of_get? (hfirst r f hf)⟩
  case written =>
    intro r hr hnone
    have hold : r ∈ st.first.keys → ∃ e' ∈ done ++ [e], e'.Writes al r := by
      intro hin
      obtain ⟨e', he', hwrites⟩ := h.written r hin hnone
      exact ⟨e', mem_append_left _ he', hwrites⟩
    split at hr
    case isTrue => exact hold hr
    case isFalse hnew =>
      rcases mem_keys_set.mp hr with rfl | hin
      · refine ⟨e, by simp, t, ?_, rfl⟩
        -- what is new has not been read
        cases hvalue : e.arg.value with
        | input u =>
          rw [hvalue] at ht
          obtain rfl := Option.some.inj ht
          exact absurd (hread hvalue) hnew
        | output u =>
          rw [hvalue] at ht
          exact .inl (congrArg _ (Option.some.inj ht))
        | scratch u =>
          rw [hvalue] at ht
          exact .inr (congrArg _ (Option.some.inj ht))
        | weight key =>
          rw [hvalue] at ht
          cases ht
        | null =>
          rw [hvalue] at ht
          cases ht
        | scalar v =>
          rw [hvalue] at ht
          cases ht
      · exact hold hin
  case produced =>
    intro pre e' post hsplit u hu hr hnone
    rcases split_append_single hsplit with ⟨rfl, rfl⟩ | ⟨post', hold⟩
    · have hut : u = t := by
        rw [hu] at ht
        exact Option.some.inj ht
      subst hut
      exact h.written _ (hread hu) hnone
    · exact h.produced pre e' post' hold u hu hr hnone

/-- One step of the loop. -/
theorem LifeSpec.step (horder : ∀ e' ∈ done, e'.index ≤ e.index) {st' : Lifetimes}
    (hstep : touch g al roots verified st e = .ok st') :
    LifeSpec g al roots verified (done ++ [e]) st' := by
  have hpointer : ∀ t, pointee e.arg.value = some t → (∀ key, e.arg.value ≠ .weight key) →
      (if (resolveTensor al t).1 ∈ roots.keys then .ok st
        else touchRoot g verified st e t (resolveTensor al t).1) = .ok st' →
      LifeSpec g al roots verified (done ++ [e]) st' := by
    intro t ht hweight hrun
    split at hrun
    case isTrue hin =>
      rw [← Except.ok.inj hrun]
      refine h.idle hweight fun r htouch => ?_
      rw [← (Touch.touches_iff ht).mp htouch]
      exact hin
    case isFalse hroot =>
      unfold touchRoot at hrun
      split at hrun
      case h_1 data hconst =>
        unfold touchConst at hrun
        split_ifs at hrun with hverified hmask
        rw [not_or, not_not, not_lt] at hmask
        rw [← Except.ok.inj hrun]
        exact h.const ht hroot hconst ⟨hverified, hmask.1, hmask.2⟩
      case h_2 hconst =>
        split at hrun
        case isTrue => cases hrun
        case isFalse hread =>
          rw [← Except.ok.inj hrun]
          exact h.plain horder ht hroot hconst fun hinput =>
            not_not.mp fun hnew => hread ⟨hinput, hnew⟩
  unfold touch at hstep
  split at hstep
  case h_1 => cases hstep
  case h_2 hvalue =>
    rw [← Except.ok.inj hstep]
    refine h.idle (by simp [hvalue]) fun r htouch => ?_
    obtain ⟨t, ht, -⟩ := htouch
    rw [hvalue] at ht
    cases ht
  case h_3 v hvalue =>
    rw [← Except.ok.inj hstep]
    refine h.idle (by simp [hvalue]) fun r htouch => ?_
    obtain ⟨t, ht, -⟩ := htouch
    rw [hvalue] at ht
    cases ht
  case h_4 t hvalue => exact hpointer t (by rw [hvalue]; rfl) (by simp [hvalue]) hstep
  case h_5 t hvalue => exact hpointer t (by rw [hvalue]; rfl) (by simp [hvalue]) hstep
  case h_6 t hvalue => exact hpointer t (by rw [hvalue]; rfl) (by simp [hvalue]) hstep

end

theorem LifeSpec.nil :
    LifeSpec g al roots verified [] ⟨PyDict.empty, PyDict.empty, PyDict.empty⟩ where
  weights e he := by cases he
  masks e he := by cases he
  spans e he := by cases he
  firsts r f hf := by cases hf
  maskKeys r hr := by cases hr
  written r hr := by cases hr
  produced pre e post hsplit := by simp at hsplit

/-- The lifetimes say what is true of all touches. -/
theorem lifeSpec_of_touchAll {stages : List (KernelOp × List Arg)}
    (h : touchAll g al roots verified stages = .ok st) :
    LifeSpec g al roots verified (touches stages) st := by
  have hrun := foldlM_induction
    (P := fun done st => (done.Pairwise fun e e' => e.index ≤ e'.index) →
      LifeSpec g al roots verified done st) ?_ ?_ h
  · exact hrun (pairwise_touches stages)
  · intro done e st st' ih hstep hpairwise
    obtain ⟨hinit, -, hlast⟩ := pairwise_append.mp hpairwise
    exact (ih hinit).step (fun e' he' => hlast e' he' e (by simp)) hstep
  · exact fun _ => LifeSpec.nil

end

/-! ### Places -/

section
variable {g : BaseGraph} {lives : Lifetimes} {blocks : List (LinearScan.Block String)}

theorem get?_of_info {t : String} {info : TensorInfo} (h : g.info t = .ok info) :
    g.tensors.get? t = some info := by
  unfold BaseGraph.info at h
  split at h
  case h_1 hget =>
    rw [hget, Except.ok.inj h]
  case h_2 => cases h

/-- The item of a root has its lifetime, and its size. -/
theorem scanItem_eq_ok {r : String} {x : LinearScan.Item String} (h : scanItem g lives r = .ok x) :
    ∃ info, g.tensors.get? r = some info ∧
      x = ⟨r, (lives.first.get? r).getD 0, (lives.last.get? r).getD 0, aligned info.planBytes⟩ := by
  obtain ⟨info, hinfo, h⟩ := bind_eq_ok_iff.mp h
  exact ⟨info, get?_of_info hinfo, (Except.ok.inj h).symm⟩

theorem placeRoots_eq_ok (h : placeRoots g lives = .ok blocks) : ∃ items,
    (lives.first.keys.insertionSort (placedBefore lives.first)).mapM (scanItem g lives) =
      .ok items ∧
      blocks = LinearScan.placeAll items := by
  obtain ⟨items, hitems, h⟩ := bind_eq_ok_iff.mp h
  exact ⟨items, hitems, (Except.ok.inj h).symm⟩

theorem map_key_items {items : List (LinearScan.Item String)} {rs : List String}
    (h : rs.mapM (scanItem g lives) = .ok items) : items.map LinearScan.Item.key = rs := by
  induction rs generalizing items with
  | nil =>
    obtain rfl := Except.ok.inj h
    rfl
  | cons r rest ih =>
    rw [mapM_cons] at h
    obtain ⟨x, hx, h⟩ := bind_eq_ok_iff.mp h
    obtain ⟨xs, hxs, h⟩ := bind_eq_ok_iff.mp h
    obtain rfl := Except.ok.inj h
    obtain ⟨info, -, rfl⟩ := scanItem_eq_ok hx
    rw [map_cons, ih hxs]

section
variable (h : placeRoots g lives = .ok blocks)
include h

/-- The blocks are those of the roots that are touched. -/
theorem map_key_blocks :
    (blocks.map fun b => b.item.key).Perm lives.first.keys := by
  obtain ⟨items, hitems, rfl⟩ := placeRoots_eq_ok h
  have hkeys : (LinearScan.placeAll items).map (fun b => b.item.key) =
      ((LinearScan.placeAll items).map LinearScan.Block.item).map LinearScan.Item.key := by
    rw [map_map]
    rfl
  rw [hkeys, LinearScan.map_item_placeAll, map_key_items hitems]
  exact perm_insertionSort _ _

theorem nodup_key_blocks :
    (blocks.map fun b => b.item.key).Nodup :=
  (map_key_blocks h).nodup_iff.mpr lives.first.keys_nodup

/-- A block has the lifetime and the size of its root. -/
theorem item_eq_of_mem {b : LinearScan.Block String} (hb : b ∈ blocks) :
    ∃ info, g.tensors.get? b.item.key = some info ∧
      b.item.first = (lives.first.get? b.item.key).getD 0 ∧
      b.item.last = (lives.last.get? b.item.key).getD 0 ∧
      b.item.size = aligned info.planBytes := by
  obtain ⟨items, hitems, rfl⟩ := placeRoots_eq_ok h
  have hitem : b.item ∈ items := by
    rw [← LinearScan.map_item_placeAll items]
    exact mem_map_of_mem hb
  obtain ⟨r, -, hr⟩ := exists_of_mem_mapM hitems hitem
  obtain ⟨info, hinfo, heq⟩ := scanItem_eq_ok hr
  rw [heq]
  exact ⟨info, hinfo, rfl, rfl, rfl⟩

/-- The place of a root is that of its block. -/
theorem get?_placeOf_iff {r : String} {start : ℕ} :
    (placeOf blocks).get? r = some start ↔ ∃ b ∈ blocks, b.item.key = r ∧ b.start = start := by
  have hnodup : ((blocks.map fun b => (b.item.key, b.start)).map Prod.fst).Nodup := by
    rw [map_map]
    exact nodup_key_blocks h
  unfold placeOf
  rw [get?_ofList_iff hnodup, mem_map]
  simp only [Prod.mk.injEq]

/-- Blocks that live at the same time are apart. -/
theorem apart_blocks {b b' : LinearScan.Block String} (hb : b ∈ blocks) (hb' : b' ∈ blocks)
    (hne : b.item.key ≠ b'.item.key) (hmeets : b.item.Meets b'.item) : b.Apart b' := by
  obtain ⟨items, -, rfl⟩ := placeRoots_eq_ok h
  exact LinearScan.apart_of_mem_placeAll hb hb' hne hmeets

end

end

end ModelBlaster.Composite

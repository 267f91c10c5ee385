import ModelBlaster.Library.Fallible
import ModelBlaster.Library.PyDict
import ModelBlaster.Library.PyList
import ModelBlaster.Library.PyStr

/-!
# Layout folding

`layout_fold` deletes strided copies around a batched matrix product, which then reads and writes
through strides. The report of the pass is left out, and so are the fields of an op that it only
carries along.

## Main definitions

* `AffineMap`: an offset, and sizes with strides;
* `merge`, `fit`: the same map with fewer sizes, and with given ones;
* `compose`: a map through another one;
* `same`: the check of a composed map;
* `LayoutGraph`: a graph, as far as the pass sees it;
* `sourceMap`, `sinkMap`: the chains of copies around a tensor;
* `tryFold`: the op that a product becomes, with the ops that are dead then;
* `foldStep`, `fold`: one round of the pass, and the pass.
-/

/-! ## Affine maps between tensors -/

namespace ModelBlaster.LayoutFold

/-- The exceptions of the pass. -/
inductive FoldError where
  | keyError
  | indexError
  | valueError
  | zeroDivision
  /-- The loop goes on for ever. -/
  | diverges
  deriving DecidableEq, Repr

/-- Sizes and strides by name. -/
abbrev Shape := PyDict String ℕ

/-- `shape[key]` -/
def field (shape : Shape) (key : String) : Except FoldError ℕ :=
  match shape.get? key with
  | some v => .ok v
  | none => .error .keyError

/-- `a % b` -/
def mod (a b : ℕ) : Except FoldError ℕ := if b = 0 then .error .zeroDivision else .ok (a % b)

/-- `a // b` -/
def div (a b : ℕ) : Except FoldError ℕ := if b = 0 then .error .zeroDivision else .ok (a / b)

/-- An element of the result, row-major over the sizes, lives at the offset plus the sum of its
coordinates by the strides. -/
structure AffineMap where
  off : ℕ
  /-- Sizes, with their strides. -/
  dims : List (ℕ × ℕ)
  deriving DecidableEq, Repr

/-- `[d for d, _ in m[1]]` -/
def AffineMap.sizes (m : AffineMap) : List ℕ := m.dims.map Prod.fst

/-- `_contig`: the strides of a tensor without gaps. -/
def contig : List ℕ → List ℕ
  | [] => []
  | _ :: ds => ds.prod :: contig ds

/-- The map of a tensor onto itself. -/
def ofSizes (ds : List ℕ) : AffineMap := ⟨0, ds.zip (contig ds)⟩

/-- `MAXR` -/
def maxRank : ℕ := 6

/-- `copy_map` -/
def copyMap (shape : Shape) : Except FoldError AffineMap := do
  let dims ← (List.range maxRank).mapM fun i => do
    let d ← field shape ("d" ++ toString i)
    let s ← field shape ("s" ++ toString i)
    return (d, s)
  return ⟨(shape.get? "off").getD 0, dims.filter fun p => p.1 ≠ 1⟩

/-- `_eval` -/
def AffineMap.eval (m : AffineMap) (idx : List ℕ) : ℕ :=
  m.off + ((idx.zip m.dims).map fun p => p.1 * p.2.2).sum

/-- The coordinates of an element, with what is left for the sizes before them. -/
def unravelFrom (p : ℕ) : List ℕ → Except FoldError (ℕ × List ℕ)
  | [] => .ok (p, [])
  | d :: ds => do
    let (q, idx) ← unravelFrom p ds
    let i ← mod q d
    return (q / d, i :: idx)

/-- `_unravel` -/
def unravel (p : ℕ) (ds : List ℕ) : Except FoldError (List ℕ) := do
  let (_, idx) ← unravelFrom p ds
  return idx

section
variable {σ : Type} [DecidableEq σ] [Mul σ] [NatCast σ] [Zero σ]

/-- A size with what is already merged behind it. -/
def mergeStep (p : ℕ × σ) : List (ℕ × σ) → List (ℕ × σ)
  | (d₁, s₁) :: rest => if p.2 = s₁ * d₁ then (p.1 * d₁, s₁) :: rest else p :: (d₁, s₁) :: rest
  | [] => [p]

/-- `merge` -/
def merge (dims : List (ℕ × σ)) : List (ℕ × σ) :=
  (dims.filter fun p => p.1 ≠ 1).foldr mergeStep []

/-- The stride of a size of `want`, of which `got` is there, and the sizes that are left. -/
def fitOne (want : ℕ) : ℕ → Option σ → List (ℕ × σ) →
    Except FoldError (Option (σ × List (ℕ × σ)))
  | got, stride, [] =>
    if got < want then .ok none
    else if got ≠ want then .ok none
    else .ok (some (stride.getD 0, []))
  | got, stride, (d, s) :: src =>
    if got < want then do
      let need ← div want got
      let rem ← mod want got
      if rem ≠ 0 then return none
      if d ≤ need then
        -- It cannot be merged with the piece before it.
        if stride.any (· ≠ s * d) then return none
        fitOne want (got * d) (some s) src
      else do
        let rem ← mod d need
        if rem ≠ 0 then return none
        if stride.any (· ≠ s * (d / need : ℕ) * need) then return none
        -- The outer part of the size is all that is needed.
        if got * need ≠ want then return none
        return some (s * (d / need : ℕ), (d / need, s) :: src)
    else if got ≠ want then .ok none
    else .ok (some (stride.getD 0, (d, s) :: src))

/-- The strides for some sizes, with the sizes that are left. -/
def fitFrom : List ℕ → List (ℕ × σ) → Except FoldError (Option (List σ × List (ℕ × σ)))
  | [], src => .ok (some ([], src))
  | want :: sizes, src =>
    if want = 1 then do
      match ← fitFrom sizes src with
      | some (res, src) => return some (0 :: res, src)
      | none => return none
    else do
      match ← fitOne want 1 none src with
      | some (stride, src) =>
        match ← fitFrom sizes src with
        | some (res, src) => return some (stride :: res, src)
        | none => return none
      | none => return none

/-- `fit` -/
def fit (dims : List (ℕ × σ)) (sizes : List ℕ) : Except FoldError (Option (List σ)) := do
  match ← fitFrom sizes (dims.filter fun p => p.1 ≠ 1) with
  | some (res, []) => return some res
  | _ => return none

end

/-- A size and its stride in the contiguous result of a map, by strides of the source of that map.
The sizes of the map come with their contiguous strides and with the coordinates of the offset. -/
def place (inner : List ((ℕ × ℕ) × ℕ × ℕ)) :
    ℕ → ℕ → ℕ → Except FoldError (Option (List (ℕ × ℕ)))
  | 0, _, _ => .error .diverges
  | fuel + 1, d, t =>
    if d = 1 then .ok (some [])
    else if t = 0 then .ok (some [(d, 0)])
    else
      match inner.find? fun r => r.2.1 ≤ t with
      | none => .ok none
      | some ((dr, sr), cr, base) =>
        if t % cr ≠ 0 then .ok none
        else if base + (d - 1) * (t / cr) < dr then .ok (some [(d, t / cr * sr)])
        else if t / cr ≠ 1 ∨ base ≠ 0 ∨ d % dr ≠ 0 then .ok none
        else do
          -- It spans several sizes, and is split at this one.
          match ← place inner fuel (d / dr) (t * dr) with
          | none => return none
          | some outer =>
            match ← place inner fuel dr t with
            | none => return none
            | some pieces => return some (outer ++ pieces)

/-- The pieces of all sizes. -/
def placeAll (inner : List ((ℕ × ℕ) × ℕ × ℕ)) :
    List (ℕ × ℕ) → Except FoldError (Option (List (ℕ × ℕ)))
  | [] => .ok (some [])
  | (d, t) :: work => do
    match ← place inner (inner.length + 2) d t with
    | none => return none
    | some pieces =>
      match ← placeAll inner work with
      | none => return none
      | some others => return some (pieces ++ others)

section
variable (draw : List ℕ → List (List ℕ))

/-- `_samples`: the corners and some points that are drawn. -/
def samples (ds : List ℕ) : Except FoldError (List (List ℕ)) :=
  if ds = [] then .ok [[]]
  -- There is nothing to draw from.
  else if 0 ∈ ds then .error .valueError
  else .ok (ds.map (fun _ => 0) :: ds.map (· - 1) :: draw ds)

/-- Whether a map is another one through a third one, at one point. -/
def agrees (outer inner cand : AffineMap) (idx : List ℕ) : Except FoldError Bool := do
  let p := outer.eval idx
  let want ← if inner.dims = [] then pure (inner.off + p) else do
    let coords ← unravel p inner.sizes
    pure (inner.eval coords)
  let lin := ((idx.zip (contig outer.sizes)).map fun q => q.1 * q.2).sum
  let there ← unravel lin cand.sizes
  return cand.eval there = want

/-- Whether all points agree. -/
def allAgree (outer inner cand : AffineMap) : List (List ℕ) → Except FoldError Bool
  | [] => .ok true
  | idx :: points => do
    if ← agrees outer inner cand idx then allAgree outer inner cand points else return false

/-- `_same` -/
def same (outer inner cand : AffineMap) : Except FoldError Bool :=
  if cand.sizes ≠ outer.sizes ∧ cand.sizes.prod ≠ outer.sizes.prod then .ok false
  else do
    let points ← samples draw outer.sizes
    allAgree outer inner cand points

/-- `compose` -/
def compose (outer : AffineMap) (innerShape : List ℕ) (inner : AffineMap) :
    Except FoldError (Option AffineMap) := do
  let ds := inner.sizes
  if ds.prod ≠ innerShape.prod ∧ inner.dims ≠ [] then return none
  let base ← unravel outer.off ds
  match ← placeAll (inner.dims.zip ((contig ds).zip base)) outer.dims with
  | none => return none
  | some pieces =>
    let off := inner.off + ((base.zip inner.dims).map fun p => p.1 * p.2.2).sum
    let cand : AffineMap := ⟨off, pieces⟩
    if ← same draw outer inner cand then return some cand else return none

end

/-! ### Graphs -/

/-- A stage of a fused group, or the kernel of an op. -/
structure Stage where
  name : String
  op : String
  inputs : List String
  outputs : List String
  shape : Shape

/-- An op. -/
structure LayoutOp extends Stage where
  /-- Where the window of a view begins. -/
  offset : ℕ := 0
  /-- `sub_ops`, for a fused group. -/
  subOps : Option (List Stage) := none
  /-- `shape["a"]`, for a group with such a shape. -/
  stageShape : Option Shape := none
  /-- The copies that were folded into the op. -/
  folded : List String := []

/-- An entry of `tensors`. -/
structure TensorEntry where
  shape : List ℕ
  /-- Whether the tensor is a constant. -/
  isConst : Bool := false

/-- A graph. -/
structure LayoutGraph where
  ops : List LayoutOp
  tensors : PyDict String TensorEntry
  inputs : List String
  outputs : List String

/-- `GEMM_OPS` -/
def gemmOps : PyDict String String :=
  PyDict.ofList [("bmm", "bmm_strided"), ("bmm_f16", "bmm_strided_f16")]

/-- `COPY_OPS` -/
def copyOps : List String := ["strided_copy", "strided_copy_f16"]

/-- `VIEW_OPS` -/
def viewOps : List String := ["view"]

/-- `COPY_OPS | VIEW_OPS` -/
def moveOps : List String := copyOps ++ viewOps

namespace LayoutGraph

/-- `prod.get(t)`: the last op that writes a tensor. -/
def producer (g : LayoutGraph) (t : String) : Option LayoutOp :=
  (g.ops.filter fun o => t ∈ o.outputs).getLast?

/-- `readers.get(t, [])`: the ops that read a tensor, each as often as it does. -/
def readers (g : LayoutGraph) (t : String) : List LayoutOp :=
  g.ops.flatMap fun o => (o.inputs.filter (· = t)).map fun _ => o

/-- `_tshape` -/
def tshape (g : LayoutGraph) (t : String) : Except FoldError (List ℕ) :=
  match g.tensors.get? t with
  | some entry => .ok entry.shape
  | none => .error .keyError

end LayoutGraph

/-- `l[0]` -/
def first {α : Type} : List α → Except FoldError α
  | x :: _ => .ok x
  | [] => .error .indexError

/-! ### Chains -/

section
variable (draw : List ℕ → List (List ℕ)) (g : LayoutGraph)

/-- The map of a view or a copy, whose result has `n` elements. -/
def moveMap (o : LayoutOp) (n : ℕ) : Except FoldError AffineMap :=
  if o.op ∈ viewOps then .ok ⟨o.offset, [(n, 1)]⟩ else copyMap o.shape

/-- The loop of `source_map`, for at most as many ops as the graph has. -/
def sourceLoop : ℕ → String → AffineMap → List LayoutOp →
    Except FoldError (String × AffineMap × List LayoutOp)
  | 0, _, _, _ => .error .diverges
  | fuel + 1, cur, m, chain =>
    match g.producer cur with
    | none => .ok (cur, m, chain)
    | some o =>
      if o.op ∉ moveOps then .ok (cur, m, chain)
      else do
        let src ← first o.inputs
        let shape ← g.tshape cur
        let inner ← moveMap o shape.prod
        match ← compose draw m shape inner with
        | none => return (cur, m, chain)
        | some nm =>
          if (g.readers cur).length = 1 ∧ cur ∉ g.outputs then
            sourceLoop fuel src nm (chain ++ [o])
          else return (cur, m, chain)

/-- `source_map` -/
def sourceMap (t : String) : Except FoldError (String × AffineMap × List LayoutOp) := do
  let shape ← g.tshape t
  sourceLoop draw g (g.ops.length + 1) t ⟨0, merge (ofSizes shape).dims⟩ []

/-- The loop of `sink_map`: the longest chain that ends in a copy, or in a view behind one. -/
def sinkLoop (n : ℕ) : ℕ → String → List LayoutOp → Option (String × List LayoutOp) →
    Except FoldError (Option (String × List LayoutOp))
  | 0, _, _, _ => .error .diverges
  | fuel + 1, cur, chain, best =>
    match g.readers cur with
    | [o] =>
      if cur ∈ g.outputs ∨ o.op ∉ moveOps then .ok best
      else if o.op ∈ viewOps then
        if o.offset ≠ 0 then .ok best
        else do
          let out ← first o.outputs
          let chain := chain ++ [o]
          sinkLoop n fuel out chain
            (if chain.any fun c => decide (c.op ∈ copyOps) then some (out, chain) else best)
      else do
        let m ← copyMap o.shape
        if m.off ≠ 0 ∨ m.sizes.prod ≠ n then return best
        let out ← first o.outputs
        let chain := chain ++ [o]
        sinkLoop n fuel out chain (some (out, chain))
    | _ => .ok best

/-- The map of a copy or of a view without an offset, whose result has `n` elements. -/
def backMap (o : LayoutOp) (n : ℕ) : Except FoldError AffineMap :=
  if o.op ∈ copyOps then copyMap o.shape else .ok ⟨0, [(n, 1)]⟩

/-- The map of the end of a chain back through its ops, the last one first. -/
def readBack (n : ℕ) : List LayoutOp → AffineMap → Except FoldError (Option AffineMap)
  | [], m => .ok (some m)
  | o :: before, m => do
    let inner ← backMap o n
    let out ← first o.outputs
    let shape ← g.tshape out
    match ← compose draw m shape inner with
    | none => return none
    | some m => readBack n before m

/-- Whether sizes and strides, the largest stride first, go over all elements of a tensor. -/
def dense : List (ℕ × ℕ) → Bool
  | [] => false
  | [p] => p.2 = 1
  | p :: q :: rest => p.2 = q.2 * q.1 && dense (q :: rest)

/-- The write map for a read map: the sizes in the order of their strides, with the strides of the
tensor that is read into. -/
def writeMap (m : AffineMap) : Option AffineMap :=
  let dims := merge m.dims
  let sorted := (dims.zip (contig (dims.map Prod.fst))).insertionSort fun p q => q.1.2 ≤ p.1.2
  if m.off ≠ 0 ∨ dense (sorted.map Prod.fst) = false then none
  else some ⟨0, sorted.map fun p => (p.1.1, p.2)⟩

/-- `sink_map` -/
def sinkMap (t : String) : Except FoldError (Option (String × AffineMap × List LayoutOp)) := do
  let shape ← g.tshape t
  let n := shape.prod
  match ← sinkLoop g n (g.ops.length + 1) t [] none with
  | none => return none
  | some (final, ops) =>
    let finalShape ← g.tshape final
    match ← readBack draw g n ops.reverse ⟨0, merge (ofSizes finalShape).dims⟩ with
    | none => return none
    | some m => return (writeMap m).map fun w => (final, w, ops)

end

/-! ### The fold -/

/-- A fold: an op among the ops of a graph, what it becomes, and the ops that are dead then. -/
structure Fold where
  before : List LayoutOp
  op : LayoutOp
  after : List LayoutOp
  new : LayoutOp
  dead : List LayoutOp

namespace Fold

/-- Whether an op stays: the dead ops go by their names. -/
def stays (f : Fold) (o : LayoutOp) : Bool := o.name ∉ f.dead.map fun d => d.name

/-- The ops that are left. -/
def left (f : Fold) : List LayoutOp :=
  f.before.filter f.stays ++ f.new :: f.after.filter f.stays

/-- The result of a product that writes to another tensor now. -/
def ownGone (f : Fold) : Except FoldError (List String) :=
  match f.op.subOps with
  | some _ => .ok []
  | none => do
    let out ← first f.op.outputs
    let out' ← first f.new.outputs
    return if out ≠ out' then [out] else []

end Fold

/-- `_natural` -/
def natural (batch r c : ℕ) : AffineMap := ⟨0, [(batch, r * c), (r, c), (c, 1)]⟩

/-- `_gemm_of`: the product that an op runs, itself or the head stage of a fused group. -/
def gemmOf (o : LayoutOp) : Option Stage :=
  if (gemmOps.get? o.op).isSome then some o.toStage
  else
    match o.subOps with
    | some (head :: _) => if (gemmOps.get? head.op).isSome then some head else none
    | _ => none

/-- The sizes of the inner batch level that one map suggests. -/
def innerBatches (bt r c : ℕ) (dims : List (ℕ × ℕ)) : Except FoldError (List ℕ) := do
  let sizes := (dims.filter fun p => p.1 ≠ 1).map Prod.fst
  -- The number of elements of the last sizes, for each of them.
  let products := (List.range sizes.length).map fun i => (sizes.reverse.take (i + 1)).prod
  let whole ← products.mapM fun acc => do
    let rem ← mod acc (r * c)
    if rem ≠ 0 then return []
    let rem ← mod bt (acc / (r * c))
    return if rem = 0 then [acc / (r * c)] else []
  let single ← sizes.mapM fun d => do
    let rem ← mod bt d
    return if rem = 0 then [d] else []
  return whole.flatten ++ single.flatten

/-- The shape of a strided product, for an inner batch level. -/
def stridedShape (bt M K N : ℕ) (a b c : AffineMap) (B₁ : ℕ) : Except FoldError (Option Shape) := do
  let B₀ ← div bt B₁
  let fa ← fit a.dims [B₀, B₁, M, K]
  let fb ← fit b.dims [B₀, B₁, K, N]
  let fc ← fit c.dims [B₀, B₁, M, N]
  match fa, fb, fc with
  | some [a₀, a₁, am, ak], some [b₀, b₁, bk, bn], some [c₀, c₁, cm, cn] =>
    -- Every operand stays a dense row- or column-major matrix.
    if 1 ∉ [am, ak] ∨ 1 ∉ [bk, bn] ∨ 1 ∉ [cm, cn] then return none
    else return some (PyDict.ofList [("B0", B₀), ("B1", B₁), ("M", M), ("K", K), ("N", N),
      ("a_off", a.off), ("a_s0", a₀), ("a_s1", a₁), ("a_sm", am), ("a_sk", ak),
      ("b_off", b.off), ("b_s0", b₀), ("b_s1", b₁), ("b_sk", bk), ("b_sn", bn),
      ("c_off", c.off), ("c_s0", c₀), ("c_s1", c₁), ("c_sm", cm), ("c_sn", cn)])
  | _, _, _ => return none

/-- The shape for the first inner batch level that fits. -/
def firstFit (bt M K N : ℕ) (a b c : AffineMap) : List ℕ → Except FoldError (Option Shape)
  | [] => .ok none
  | B₁ :: cands => do
    match ← stridedShape bt M K N a b c B₁ with
    | some shape => return some shape
    | none => firstFit bt M K N a b c cands

section
variable (draw : List ℕ → List (List ℕ)) (g : LayoutGraph)

/-- The source of an operand, when there is a copy on the way to it. -/
def operandSource (t : String) (plain : AffineMap) :
    Except FoldError (String × AffineMap × List LayoutOp) := do
  let (root, m, ops) ← sourceMap draw g t
  if ops.any fun o => decide (o.op ∈ copyOps) then return (root, m, ops) else return (t, plain, [])

/-- Where the result goes. A fused group keeps its own. -/
def resultSink (o : LayoutOp) (t : String) (plain : AffineMap) :
    Except FoldError (String × AffineMap × List LayoutOp) :=
  if (gemmOps.get? o.op).isSome then do
    match ← sinkMap draw g t with
    | some sink => return sink
    | none => return (t, plain, [])
  else .ok (t, plain, [])

/-- The op for a strided product, which is the op itself or the head stage of it. -/
def rewritten (o : LayoutOp) (gm : Stage) (aTensor bTensor aRoot bRoot cFinal : String)
    (shape : Shape) (folded : List String) : LayoutOp :=
  let strided := (gemmOps.get? gm.op).getD gm.op
  let head : Stage :=
    { gm with op := strided, inputs := [aRoot, bRoot], outputs := [cFinal], shape }
  if (gemmOps.get? o.op).isSome then { o with toStage := head, folded }
  else
    -- Of a fused group only the operands of the head stage change.
    let ext (t : String) : String := if t = bTensor then bRoot else if t = aTensor then aRoot else t
    { o with
      op := String.ofList (PyStr.replaceFirst ("fused__" ++ gm.op ++ "__").toList
        ("fused__" ++ strided ++ "__").toList o.op.toList)
      inputs := PyList.orderedUnique (o.inputs.map ext)
      subOps := o.subOps.map fun stages => head :: stages.tail
      stageShape := o.stageShape.map fun _ => shape
      folded }

/-- `_try_fold`: the new op, and the ops that are dead then. -/
def tryFold (o : LayoutOp) (gm : Stage) : Except FoldError (Option (LayoutOp × List LayoutOp)) := do
  let bt ← field gm.shape "batch"
  let M ← field gm.shape "M"
  let K ← field gm.shape "K"
  let N ← field gm.shape "N"
  match gm.inputs, gm.outputs with
  | aTensor :: bTensor :: _, cTensor :: _ => do
    let (aRoot, aMap, aOps) ← operandSource draw g aTensor (natural bt M K)
    let (bRoot, bMap, bOps) ← operandSource draw g bTensor (natural bt K N)
    let (cFinal, cMap, cOps) ← resultSink draw g o cTensor (natural bt M N)
    if aOps = [] ∧ bOps = [] ∧ cOps = [] then return none
    let aCands ← innerBatches bt M K aMap.dims
    let bCands ← innerBatches bt K N bMap.dims
    let cCands ← innerBatches bt M N cMap.dims
    let cands := (1 :: (aCands ++ bCands ++ cCands)).dedup.insertionSort (· ≥ ·)
    match ← firstFit bt M K N aMap bMap cMap cands with
    | none => return none
    | some shape =>
      let dead := aOps ++ bOps ++ cOps
      let folded := (dead.filter fun d => d.op ∈ copyOps).map fun d => d.name
      return some (rewritten o gm aTensor bTensor aRoot bRoot cFinal shape folded, dead)
  | _ :: _ :: _, [] => .error .indexError
  | _, _ => .error .valueError

variable (only : List String)

/-- The first fold of the ops that are left. -/
def pickFrom (before : List LayoutOp) : List LayoutOp → Except FoldError (Option Fold)
  | [] => .ok none
  | o :: after =>
    match gemmOf o with
    | none => pickFrom (before ++ [o]) after
    | some gm =>
      if only ≠ [] ∧ o.name ∉ only then pickFrom (before ++ [o]) after
      else do
        match ← tryFold draw g o gm with
        | none => pickFrom (before ++ [o]) after
        | some (new, dead) => return some ⟨before, o, after, new, dead⟩

/-- The fold that a round of the loop does. -/
def pickFold : Except FoldError (Option Fold) := pickFrom draw g only [] g.ops

/-- The graph after a fold. -/
def applyFold (f : Fold) : Except FoldError LayoutGraph := do
  let own ← f.ownGone
  let gone := f.dead.flatMap fun d =>
    d.outputs.filter fun t => t ∉ f.new.inputs ∧ t ∉ f.new.outputs
  return { g with ops := f.left, tensors := (gone ++ own).foldl PyDict.pop g.tensors }

/-- One round of the loop of `fold`. -/
def foldStep : Except FoldError (Option LayoutGraph) := do
  match ← pickFold draw g only with
  | none => return none
  | some f => do
    let g' ← applyFold g f
    return some g'

end

/-- Rounds of the loop. -/
def foldLoop (draw : List ℕ → List (List ℕ)) (only : List String) :
    ℕ → LayoutGraph → Except FoldError LayoutGraph
  | 0, _ => .error .diverges
  | fuel + 1, g => do
    match ← foldStep draw g only with
    | none => return g
    | some g' => foldLoop draw only fuel g'

/-- `fold`. Each round deletes an op. -/
def fold (draw : List ℕ → List (List ℕ)) (only : List String) (g : LayoutGraph) :
    Except FoldError LayoutGraph :=
  foldLoop draw only (g.ops.length + 1) g

end ModelBlaster.LayoutFold

import ModelBlaster.Composite.Plan
import ModelBlaster.KernelFusion.ChainBinding

/-!
# Composites compute what the graph computes

The calls of a plan find every tensor where it is, tensors that live at the same time are apart, and
the output of the new op is what the graph computes. This is so unless the new op is a fused op,
whose kernel has other names for its parameters, or a part of a tensor of booleans is addressed,
whose elements are counted with four bytes.

## Main definitions

* `BaseGraph.rootOf`, `BaseGraph.byteOffset`, `BaseGraph.bytes`: where a tensor is, and its size;
* `baseValues`: what a graph computes;
* `runComposite`: what a composite makes of a memory;
* `WellFormed`: graphs in which every tensor has one writer, and no reader in front of it;
* `PlanSteps`: the steps that a plan has come from;
* `newArgs`, `entryOf`: the arguments of the new op, and the parameters that they are passed for;
* `Replaces`: the new op takes the place of the absorbed ops;
* `PlanSound`: what the calls of a plan do;
* `PlanClear`: the condition on the new op and the absorbed ops.

## Main results

* `holds_writeAll_of_mem`, `holds_writeAll_of_apart`: what is stored stays, and so does what is
  apart from it;
* `WellFormed.resolveTensor_eq`: a plan finds the root and the offset of every tensor;
* `WellFormed.root_notMem`: roots are not written behind their readers;
* `WellFormed.baseValues_eq`: what an op has written;
* `planSteps_of_plan`: a plan that succeeds has come from its steps;
* `planSound_iff_clear`: plans are sound if and only if the condition holds.
-/

/-! ## What graphs and composites compute -/

namespace ModelBlaster.Composite

open KernelFusion StraightLine

/-! ### Tensors in buffers -/

/-- The views of a graph. -/
def BaseGraph.views (g : BaseGraph) : List (String × String × ℤ) :=
  (g.ops.filter fun o => o.op = "view").filterMap fun o => (aliasOf o).toOption

section
variable (g : BaseGraph)

/-- The root of a tensor, with the offset in it in elements. -/
def BaseGraph.rootOf (t : String) : String × ℤ := rootIn g.views t

/-- The storage type of a buffer, as the export takes it. -/
def BaseGraph.dtypeOf (t : String) : IrDtype := ((g.tensors.get? t).map TensorInfo.dtype).getD .f32

/-- The size of a buffer. -/
def BaseGraph.bytes (t : String) : ℕ :=
  ((g.tensors.get? t).map fun info => info.numel * bufferBytes info.dtype).getD 0

/-- Where a tensor is in the buffer of its root. -/
def BaseGraph.byteOffset (t : String) : ℤ := (g.rootOf t).2 * bufferBytes (g.dtypeOf t)

/-- What a kernel may see through a pointer to a tensor: the buffer of the root. -/
def BaseGraph.window (t : String) (content : ℤ → UInt8) (x : ℤ) : UInt8 :=
  if 0 ≤ g.byteOffset t + x ∧ g.byteOffset t + x < g.bytes (g.rootOf t).1 then content x else 0

end

/-! ### Ops -/

/-- The tensor that an argument is written through. -/
def written? : ArgValue → Option String
  | .output t | .scratch t => some t
  | _ => none

/-- The arguments of an op. An op without a kernel has its inputs and its outputs. -/
def argsOf (specs : Specs) (o : KernelOp) : List Arg :=
  match bindAny specs o with
  | .ok args => args
  | .error _ => o.inputs.map (fun t => ⟨.input t, ⟨⟨"void", true, true⟩, t⟩⟩) ++
      o.outputs.map fun t => ⟨.output t, ⟨⟨"void", false, true⟩, t⟩⟩

/-- The tensors that some arguments are read through. -/
def inTensors (args : List Arg) : List String := args.filterMap fun a => a.value.input?

/-- The tensors that some arguments are written through. -/
def outTensors (args : List Arg) : List String := args.filterMap fun a => written? a.value

/-- The tensors that an op reads. -/
def readBy (specs : Specs) (o : KernelOp) : List String :=
  if o.op = "view" then o.inputs else inTensors (argsOf specs o)

/-- The tensors that an op writes. -/
def writtenBy (specs : Specs) (o : KernelOp) : List String :=
  if o.op = "view" then o.outputs else outTensors (argsOf specs o)

/-- Every tensor has one writer, and no reader in front of it. -/
structure WellFormed (specs : Specs) (g : BaseGraph) : Prop where
  writers : (g.ops.flatMap (writtenBy specs)).Nodup
  order : g.ops.Pairwise fun o o' => ∀ t ∈ readBy specs o, t ∉ writtenBy specs o'
  noSelf : ∀ o ∈ g.ops, ∀ t ∈ readBy specs o, t ∉ writtenBy specs o
  /-- Views show all of one tensor, or parts of it, in its type. -/
  views : ∀ o ∈ g.ops, o.op = "view" → ∃ t s, o.outputs = [t] ∧ o.inputs = [s] ∧
    g.dtypeOf t = g.dtypeOf s
  /-- Constants are not written. -/
  consts : ∀ t, (g.constOf t).isSome → ∀ o ∈ g.ops, t ∉ writtenBy specs o

/-- What a kernel is given: bytes around a pointer that it reads, a pointer that it writes through,
or something else. -/
inductive Operand where
  | buffer (content : ℤ → UInt8)
  | pointer
  | value (v : ArgValue)

/-- What the kernels compute: the bytes behind each of the pointers that they write through. -/
abbrev Behaviour : Type := KernelOp → List Operand → ℕ → ℤ → UInt8

/-! ### Graphs -/

/-- The contents of the buffers, by their roots. -/
abbrev Contents : Type := String → ℤ → UInt8

section
variable (K : Behaviour) (g : BaseGraph) (specs : Specs)

/-- What an op of the graph is given. -/
def baseOperand (contents : Contents) (a : Arg) : Operand :=
  match a.value with
  | .input t => .buffer (g.window t fun x => contents (g.rootOf t).1 (g.byteOffset t + x))
  | .output _ | .scratch _ => .pointer
  | v => .value v

/-- The first bytes of what is written. -/
def clip (n : ℕ) (content : ℤ → UInt8) (x : ℤ) : UInt8 := if 0 ≤ x ∧ x < n then content x else 0

/-- What an op does in the graph. -/
def baseEffect (o : KernelOp) (contents : Contents) : Contents := fun t =>
  if t ∈ outTensors (argsOf specs o) then
    clip (g.bytes t) (K o ((argsOf specs o).map (baseOperand g contents))
      ((outTensors (argsOf specs o)).idxOf t))
  else contents t

/-- An op of the graph. -/
def baseInstr (o : KernelOp) : Instr String (ℤ → UInt8) where
  reads := (inTensors (argsOf specs o)).map fun t => (g.rootOf t).1
  writes := outTensors (argsOf specs o)
  effect := baseEffect K g specs o
  frame _ _ h := if_neg h
  footprint σ τ h t ht := by
    have hoperands : (argsOf specs o).map (baseOperand g σ) =
        (argsOf specs o).map (baseOperand g τ) := by
      apply List.map_congr_left
      intro a ha
      unfold baseOperand
      cases hvalue : a.value with
      | input u =>
        have hread : (g.rootOf u).1 ∈ (inTensors (argsOf specs o)).map fun t => (g.rootOf t).1 :=
          List.mem_map_of_mem (List.mem_filterMap.mpr ⟨a, ha, by rw [hvalue]; rfl⟩)
        show Operand.buffer _ = Operand.buffer _
        rw [h _ hread]
      | output u => rfl
      | scratch u => rfl
      | weight key => rfl
      | null => rfl
      | scalar v => rfl
    unfold baseEffect
    rw [if_pos ht, if_pos ht, hoperands]

/-- What the graph computes, from the contents of the buffers in the beginning. -/
def baseValues (contents : Contents) : Contents :=
  run ((g.ops.filter fun o => o.op ≠ "view").map (baseInstr K g specs)) contents

end

/-! ### Memory -/

/-- The buffers of a composite. -/
inductive Buffer where
  | tensor (root : String)
  | workspace
deriving DecidableEq

/-- A pointer. -/
@[ext]
structure Addr where
  buffer : Buffer
  offset : ℤ
deriving DecidableEq

/-- The bytes of all buffers. -/
abbrev Memory : Type := Buffer → ℤ → UInt8

/-- Some bytes that are stored. -/
structure Store where
  addr : Addr
  size : ℕ
  content : ℤ → UInt8

/-- The memory behind a store. -/
def Memory.write (m : Memory) (s : Store) : Memory := fun b x =>
  if b = s.addr.buffer ∧ s.addr.offset ≤ x ∧ x < s.addr.offset + s.size then
    s.content (x - s.addr.offset)
  else m b x

/-- The memory behind some stores. -/
def writeAll (m : Memory) (stores : List Store) : Memory := stores.foldl Memory.write m

/-- The bytes behind a pointer. -/
def Holds (m : Memory) (a : Addr) (n : ℕ) (content : ℤ → UInt8) : Prop :=
  ∀ x : ℤ, 0 ≤ x → x < n → m a.buffer (a.offset + x) = content x

/-- Regions with nothing in common. -/
def Apart (a : Addr) (n : ℕ) (b : Addr) (k : ℕ) : Prop :=
  a.buffer ≠ b.buffer ∨ a.offset + n ≤ b.offset ∨ b.offset + k ≤ a.offset

section
variable {m : Memory} {a : Addr} {n : ℕ} {content : ℤ → UInt8} {s : Store} {stores : List Store}

theorem holds_write_self : Holds (m.write s) s.addr s.size s.content := by
  intro x hx hlt
  show ite _ _ _ = _
  rw [if_pos ⟨rfl, by omega, by omega⟩]
  congr 1
  omega

theorem Holds.write (h : Holds m a n content) (hapart : Apart a n s.addr s.size) :
    Holds (m.write s) a n content := by
  intro x hx hlt
  show ite _ _ _ = _
  rw [if_neg, h x hx hlt]
  rintro ⟨hbuffer, hle, hlt'⟩
  rcases hapart with hne | hle' | hle'
  · exact hne hbuffer
  · omega
  · omega

/-- What is apart from all stores stays. -/
theorem holds_writeAll_of_apart (h : Holds m a n content)
    (hapart : ∀ s ∈ stores, Apart a n s.addr s.size) : Holds (writeAll m stores) a n content := by
  induction stores generalizing m with
  | nil => exact h
  | cons s rest ih =>
    exact ih (h.write (hapart s List.mem_cons_self))
      fun s' hs' => hapart s' (List.mem_cons_of_mem s hs')

/-- What is stored is there in the end, if the stores are apart. -/
theorem holds_writeAll_of_mem
    (hpairwise : stores.Pairwise fun s s' => Apart s.addr s.size s'.addr s'.size) (hs : s ∈ stores)
    :
    Holds (writeAll m stores) s.addr s.size s.content := by
  induction stores generalizing m with
  | nil => cases hs
  | cons s' rest ih =>
    obtain ⟨hhead, htail⟩ := List.pairwise_cons.mp hpairwise
    rcases List.mem_cons.mp hs with rfl | hrest
    · show Holds (writeAll (m.write s) rest) _ _ _
      exact holds_writeAll_of_apart holds_write_self hhead
    · exact ih htail hrest

end

/-! ### Composites -/

/-- A name that is not declared, or a pointer in place of something else. -/
inductive RunError where
  | undeclared (name : String)
  | mismatch
deriving DecidableEq, Repr

/-- What is passed for a parameter of a kernel. -/
inductive Passed where
  | read (t : String) (a : Addr)
  | write (t : String) (a : Addr)
  | value (v : ArgValue)

/-- What a kernel is given in a composite. -/
def operandOf (g : BaseGraph) (m : Memory) : Passed → Operand
  | .read t a => .buffer (g.window t fun x => m a.buffer (a.offset + x))
  | .write _ _ => .pointer
  | .value v => .value v

/-- The tensors that are written, with the pointers to them. -/
def outPointers (passed : List Passed) : List (String × Addr) :=
  passed.filterMap fun
    | .write t a => some (t, a)
    | _ => none

/-- What a call stores. -/
def callStores (K : Behaviour) (g : BaseGraph) (o : KernelOp) (passed : List Passed) (m : Memory) :
    List Store :=
  (outPointers passed).zipIdx.map fun out =>
    ⟨out.1.2, g.bytes out.1.1, K o (passed.map (operandOf g m)) out.2⟩

/-- What a call makes of the memory. -/
def runCall (K : Behaviour) (g : BaseGraph) (o : KernelOp) (passed : List Passed) (m : Memory) :
    Memory := writeAll m (callStores K g o passed m)

section
variable (g : BaseGraph) (specs : Specs) (entry : List (Param × Arg))

/-- The pointer that is passed for a parameter of the new op. -/
def entryPointer (name : String) : Option Addr := do
  let a ← (entry.map fun pa => (pa.1.name, pa.2)).lookup name
  let t ← pointee a.value
  return ⟨.tensor (g.rootOf t).1, g.byteOffset t⟩

/-- The pointer that an expression stands for, if there is a parameter of its name. -/
def evalPtr : PtrExpr → Except RunError Addr
  | .param name d =>
    match entryPointer g entry name with
    | some a => .ok ⟨a.buffer, a.offset + d⟩
    | none => .error (.undeclared name)
  | .ws d => .ok ⟨.workspace, d⟩

/-- What is passed for an argument. -/
def evalArg (ac : Arg × CallArg) : Except RunError Passed :=
  match ac.2 with
  | .ptr _ e => do
    let a ← evalPtr g entry e
    match ac.1.value with
    | .input t => return .read t a
    | .output t | .scratch t => return .write t a
    | _ => .error .mismatch
  | .nullptr _ | .scalar _ _ => .ok (.value ac.1.value)

/-- What is passed in a call. -/
def evalCall (call : KernelOp × List CallArg) : Except RunError (List Passed) :=
  ((argsOf specs call.1).zip call.2).mapM (evalArg g entry)

/-- What a call of the composite makes of the memory. -/
def runStage (K : Behaviour) (m : Memory) (call : KernelOp × List CallArg) :
    Except RunError Memory := do
  let passed ← evalCall g specs entry call
  return runCall K g call.1 passed m

/-- A byte of a mask, `__float2half` of one above the diagonal and of zero below. -/
def maskByte (rows cols : ℕ) (x : ℤ) : UInt8 :=
  let rc := (x.toNat / 2) % (rows * cols)
  if x % 2 = 1 ∧ rc / cols < rc % cols then 0x3C else 0

/-- `mb_fill_triu` -/
def fillStore (f : Fill) : Store :=
  ⟨⟨.workspace, f.start⟩, 2 * f.numel, maskByte f.rows f.cols⟩

/-- What a composite makes of the memory: masks are filled, then the calls are made. -/
def runComposite (K : Behaviour) (p : CompositePlan) (m : Memory) : Except RunError Memory :=
  p.calls.foldlM (runStage g specs entry K) (writeAll m (p.fills.map fillStore))

end

end ModelBlaster.Composite

/-! ## What a plan says -/

/-! ## What a well-formed graph computes -/

namespace ModelBlaster.Composite

open KernelFusion StraightLine List

section
variable {specs : Specs} {g : BaseGraph}

/-! ### Views -/

variable {v : String × String × ℤ} {o : KernelOp} {al : Aliases} {t : String}

theorem aliasOf_eq_ok (h : aliasOf o = .ok v) :
    v.1 ∈ o.outputs ∧ v.2.1 ∈ o.inputs := by
  unfold aliasOf at h
  split at h
  case h_1 t _ s _ hout hin =>
    rw [← Except.ok.inj h, hout, hin]
    exact ⟨mem_cons_self, mem_cons_self⟩
  case h_2 => cases h

/-- A view op writes the view, and reads what it is a view of. -/
theorem alias_footprint (specs : Specs) (hview : o.op = "view") (h : (aliasOf o).toOption = some v)
    :
    v.1 ∈ writtenBy specs o ∧ v.2.1 ∈ readBy specs o := by
  have halias : aliasOf o = .ok v := by
    cases halias : aliasOf o with
    | error e =>
      rw [halias] at h
      cases h
    | ok w =>
      rw [halias] at h
      rw [Option.some.inj h]
  unfold writtenBy readBy
  rw [if_pos hview, if_pos hview]
  exact aliasOf_eq_ok halias

/-- A view comes from an op. -/
theorem exists_of_mem_views (h : v ∈ g.views) :
    ∃ o ∈ g.ops, o.op = "view" ∧ (aliasOf o).toOption = some v := by
  obtain ⟨o, ho, hv⟩ := mem_filterMap.mp h
  rw [mem_filter, decide_eq_true_eq] at ho
  exact ⟨o, ho.1, ho.2, hv⟩

/-- The table of a plan has the views of the graph. -/
theorem aliases_eq_ok (h : aliases g = .ok al) : al = PyDict.ofList g.views := by
  obtain ⟨views, hviews, h⟩ := Fallible.bind_eq_ok_iff.mp h
  obtain rfl := Except.ok.inj h
  have hlist : ∀ (l : List KernelOp) vs, l.mapM aliasOf = .ok vs →
      l.filterMap (fun o => (aliasOf o).toOption) = vs := by
    intro l
    induction l with
    | nil =>
      intro vs hvs
      exact Except.ok.inj hvs
    | cons o rest ih =>
      intro vs hvs
      rw [mapM_cons] at hvs
      obtain ⟨w, hw, hvs⟩ := Fallible.bind_eq_ok_iff.mp hvs
      obtain ⟨ws, hws, hvs⟩ := Fallible.bind_eq_ok_iff.mp hvs
      rw [← Except.ok.inj hvs, filterMap_cons, hw, ih ws hws]
      rfl
  rw [BaseGraph.views, hlist _ _ hviews]

theorem WellFormed.disjoint (h : WellFormed specs g) :
    g.ops.Pairwise fun o o' => ∀ t ∈ writtenBy specs o, t ∉ writtenBy specs o' := by
  have hpairwise := (nodup_flatMap.mp h.writers).2
  exact hpairwise.imp fun {o o'} hdisjoint t ht ht' => hdisjoint ht ht'

/-- What holds of the ops of a graph in their order holds of its views. -/
theorem pairwise_views {R : KernelOp → KernelOp → Prop}
    {S : String × String × ℤ → String × String × ℤ → Prop} (h : g.ops.Pairwise R)
    (himp : ∀ o o' v v', o.op = "view" → o'.op = "view" → (aliasOf o).toOption = some v →
      (aliasOf o').toOption = some v' → R o o' → S v v') : g.views.Pairwise S := by
  unfold BaseGraph.views
  rw [pairwise_filterMap]
  refine (h.filter _).imp_of_mem fun {o o'} ho ho' hrel v hv v' hv' => ?_
  rw [mem_filter, decide_eq_true_eq] at ho ho'
  exact himp o o' v v' ho.2 ho'.2 hv hv' hrel

section
variable (h : WellFormed specs g)
include h

/-- The views of a well-formed graph have different names, and are views of what is there. -/
theorem WellFormed.viewsSorted : ViewsSorted g.views where
  names := by
    rw [List.Nodup, pairwise_map]
    refine pairwise_views h.disjoint fun o o' v v' ho ho' hv hv' hdisjoint heq => ?_
    refine hdisjoint v.1 (alias_footprint specs ho hv).1 ?_
    rw [heq]
    exact (alias_footprint specs ho' hv').1
  order := by
    refine pairwise_views h.order fun o o' v v' ho ho' hv hv' horder heq => ?_
    refine horder v.2.1 (alias_footprint specs ho hv).2 ?_
    rw [heq]
    exact (alias_footprint specs ho' hv').1
  noSelf v hv heq := by
    obtain ⟨o, ho, hview, halias⟩ := exists_of_mem_views hv
    obtain ⟨hwrites, hreads⟩ := alias_footprint specs hview halias
    exact h.noSelf o ho _ hreads (heq ▸ hwrites)

/-- A plan finds the root and the offset of every tensor. -/
theorem WellFormed.resolveTensor_eq (hal : aliases g = .ok al) (t : String) :
    resolveTensor al t = g.rootOf t := by
  rw [aliases_eq_ok hal]
  exact Composite.resolveTensor_eq h.viewsSorted t

/-- What a kernel writes is its own root. -/
theorem WellFormed.rootOf_of_written (ho : o ∈ g.ops) (hkernel : o.op ≠ "view")
    (ht : t ∈ writtenBy specs o) : g.rootOf t = (t, 0) := by
  refine rootIn_of_notMem fun hmem => ?_
  obtain ⟨v, hv, rfl⟩ := mem_map.mp hmem
  obtain ⟨o', ho', hview, halias⟩ := exists_of_mem_views hv
  have hne : o ≠ o' := fun heq => hkernel (heq ▸ hview)
  have hwritten := (alias_footprint specs hview halias).1
  have hsymm : Std.Symm fun o o' : KernelOp => ∀ t ∈ writtenBy specs o, t ∉ writtenBy specs o' :=
    ⟨fun _ _ hdisjoint t ht ht' => hdisjoint t ht' ht⟩
  exact h.disjoint.forall ho ho' hne v.1 ht hwritten

/-- A view has the type of its root. -/
theorem WellFormed.dtypeOf_root (t : String) :
    g.dtypeOf (g.rootOf t).1 = g.dtypeOf t := by
  refine rootIn_induction (P := fun u => g.dtypeOf u = g.dtypeOf t) h.viewsSorted ?_ rfl
  intro v hv hdtype
  obtain ⟨o, ho, hview, halias⟩ := exists_of_mem_views hv
  obtain ⟨u, s, hout, hin, heq⟩ := h.views o ho hview
  unfold aliasOf at halias
  rw [hout, hin] at halias
  obtain rfl := Option.some.inj halias
  rw [← hdtype]
  exact heq.symm

end

/-! ### Order -/

theorem pairwise_of_split {α : Type} {R : α → α → Prop} {l : List α}
    (h : ∀ pre x post, l = pre ++ x :: post → ∀ y ∈ post, R x y) : l.Pairwise R := by
  induction l with
  | nil => exact List.Pairwise.nil
  | cons a rest ih =>
    refine pairwise_cons.mpr ⟨h [] a rest rfl, ih fun pre x post hsplit => ?_⟩
    exact h (a :: pre) x post (by rw [hsplit]; rfl)

/-- The root of what an op reads is not written by the op, nor behind it. -/
theorem WellFormed.root_notMem (h : WellFormed specs g) {pre post : List KernelOp}
    (hsplit : g.ops = pre ++ o :: post) (ht : t ∈ readBy specs o) :
    ∀ o' ∈ o :: post, (g.rootOf t).1 ∉ writtenBy specs o' := by
  have horder := h.order
  rw [hsplit] at horder
  obtain ⟨-, htail, hcross⟩ := pairwise_append.mp horder
  have hself := h.noSelf o (by rw [hsplit]; simp)
  refine rootIn_induction (P := fun u => ∀ o' ∈ o :: post, u ∉ writtenBy specs o') h.viewsSorted
    ?_ ?_
  · intro v hv hnot o' ho'
    obtain ⟨w, hw, hview, halias⟩ := exists_of_mem_views hv
    obtain ⟨hwrites, hreads⟩ := alias_footprint specs hview halias
    -- the view is made in front of the op, so what it is a view of is written in front of it
    rw [hsplit] at hw
    rcases mem_append.mp hw with hpre | hback
    · exact hcross w hpre o' ho' _ hreads
    · exact absurd hwrites (hnot w hback)
  · intro o' ho'
    rcases mem_cons.mp ho' with rfl | hpost
    · exact hself t ht
    · exact (pairwise_cons.mp htail).1 o' hpost t ht

/-! ### The program -/

/-- The ops with a kernel. -/
def BaseGraph.kernels (g : BaseGraph) : List KernelOp := g.ops.filter fun o => o.op ≠ "view"

theorem mem_kernels : o ∈ g.kernels ↔ o ∈ g.ops ∧ o.op ≠ "view" := by
  unfold BaseGraph.kernels
  rw [mem_filter, decide_eq_true_eq]

theorem readBy_of_kernel (h : o.op ≠ "view") :
    readBy specs o = inTensors (argsOf specs o) := if_neg h

theorem writtenBy_of_kernel (h : o.op ≠ "view") :
    writtenBy specs o = outTensors (argsOf specs o) := if_neg h

section
variable (h : WellFormed specs g)
include h

/-- The roots of what an op reads are written in front of it. -/
theorem WellFormed.pairwise_kernels : g.kernels.Pairwise fun o o' =>
    ∀ t ∈ inTensors (argsOf specs o), (g.rootOf t).1 ∉ outTensors (argsOf specs o') := by
  have hall : g.ops.Pairwise fun o o' =>
      ∀ t ∈ readBy specs o, (g.rootOf t).1 ∉ writtenBy specs o' :=
    pairwise_of_split fun pre o post hsplit o' ho' t ht =>
      h.root_notMem hsplit ht o' (mem_cons_of_mem o ho')
  refine (hall.filter _).imp_of_mem fun {o o'} ho ho' hrel t ht => ?_
  rw [← writtenBy_of_kernel (mem_kernels.mp ho').2]
  refine hrel t ?_
  rwa [readBy_of_kernel (mem_kernels.mp ho).2]

theorem WellFormed.root_notMem_self (ho : o ∈ g.kernels) (ht : t ∈ inTensors (argsOf specs o)) :
    (g.rootOf t).1 ∉ outTensors (argsOf specs o) := by
  obtain ⟨hmem, hkernel⟩ := mem_kernels.mp ho
  obtain ⟨pre, post, hsplit⟩ := append_of_mem hmem
  rw [← writtenBy_of_kernel hkernel]
  rw [← readBy_of_kernel hkernel] at ht
  exact h.root_notMem hsplit ht o mem_cons_self

theorem WellFormed.scheduled (K : Behaviour) :
    StraightLine.Scheduled (g.kernels.map (baseInstr K g specs)) := by
  unfold StraightLine.Scheduled
  rw [pairwise_map]
  refine (h.pairwise_kernels.and (h.disjoint.filter _)).imp_of_mem fun {o o'} ho ho' hrel => ?_
  constructor
  · intro r hr
    obtain ⟨t, ht, rfl⟩ := mem_map.mp hr
    exact hrel.1 t ht
  · intro t ht
    have hdisjoint := hrel.2 t
    rw [writtenBy_of_kernel (mem_kernels.mp ho).2, writtenBy_of_kernel (mem_kernels.mp ho').2]
      at hdisjoint
    exact hdisjoint ht

/-- What an op has written is what its kernel makes of the contents in the end. -/
theorem WellFormed.baseValues_eq (K : Behaviour) (contents : Contents) (ho : o ∈ g.kernels)
    (ht : t ∈ outTensors (argsOf specs o)) :
    baseValues K g specs contents t = baseEffect K g specs o (baseValues K g specs contents) t := by
  refine run_eq_effect (x := baseInstr K g specs o) (h.scheduled K) (mem_map_of_mem ho) ?_ ht
    contents
  intro r hr
  obtain ⟨u, hu, rfl⟩ := mem_map.mp hr
  exact h.root_notMem_self ho hu

end

/-- What no op writes keeps its contents. -/
theorem baseValues_of_notMem {K : Behaviour} {contents : Contents}
    (h : ∀ o ∈ g.kernels, t ∉ outTensors (argsOf specs o)) :
    baseValues K g specs contents t = contents t := by
  refine run_of_notMem (fun x hx => ?_) contents
  obtain ⟨o, ho, rfl⟩ := mem_map.mp hx
  exact h o ho

end

open Fallible

/-- The arguments of the new op. -/
def newArgs (specs : Specs) (new : NewOp) : List Arg := argsOf specs new.op

/-- The parameters of the kernel of the new op. -/
def entryParams (specs : Specs) (new : NewOp) : List Param :=
  ((paramsOf specs new.op.op).toOption).getD []

/-- The parameters of the kernel of the new op, with what is passed for them. -/
def entryOf (specs : Specs) (new : NewOp) : List (Param × Arg) :=
  (entryParams specs new).zip (newArgs specs new)

/-- The steps of a plan. -/
structure PlanSteps (g : BaseGraph) (new : NewOp) (specs : Specs) (verified : List String)
    (p : CompositePlan) (al : Aliases) (lives : Lifetimes)
    (blocks : List (LinearScan.Block String)) : Prop where
  aliasesOk : aliases g = .ok al
  bound : ∀ o ∈ g.kernelOps new, bindAny specs o = .ok (argsOf specs o)
  boundNew : bindAny specs new.op = .ok (newArgs specs new)
  livesOk : touchAll g al (boundRoots g al (newArgs specs new)) verified
    ((g.kernelOps new).map fun o => (o, argsOf specs o)) = .ok lives
  blocksOk : placeRoots g lives = .ok blocks
  calls : ((g.kernelOps new).map fun o => (o, argsOf specs o)).mapM
    (stageCall g al (boundRoots g al (newArgs specs new)) (placeOf blocks)) = .ok p.calls
  fills : lives.masks.keys.mapM (fillOf g (placeOf blocks)) = .ok p.fills
  workspace : blocks.mapM (regionOf g) = .ok p.workspace
  wsBytes : p.wsBytes = LinearScan.extent blocks

section
variable {g : BaseGraph} {new : NewOp} {specs : Specs} {verified : List String} {cap : ℕ}
  {p : CompositePlan}

theorem bindStageOp_eq_ok {o : KernelOp} {stage : KernelOp × List Arg}
    (h : bindStageOp specs o = .ok stage) :
    bindAny specs o = .ok (argsOf specs o) ∧ stage = (o, argsOf specs o) := by
  unfold bindStageOp at h
  unfold argsOf
  split at h
  case h_1 args hbind =>
    rw [hbind]
    exact ⟨rfl, (Except.ok.inj h).symm⟩
  case h_2 => cases h

theorem mapM_bindStageOp {ops : List KernelOp} {stages : List (KernelOp × List Arg)}
    (h : ops.mapM (bindStageOp specs) = .ok stages) :
    (∀ o ∈ ops, bindAny specs o = .ok (argsOf specs o)) ∧
      stages = ops.map fun o => (o, argsOf specs o) := by
  induction ops generalizing stages with
  | nil => exact ⟨fun o ho => absurd ho not_mem_nil, (Except.ok.inj h).symm⟩
  | cons o rest ih =>
    rw [mapM_cons] at h
    obtain ⟨stage, hstage, h⟩ := bind_eq_ok_iff.mp h
    obtain ⟨stages', hstages, h⟩ := bind_eq_ok_iff.mp h
    obtain ⟨hbind, rfl⟩ := bindStageOp_eq_ok hstage
    obtain ⟨hbinds, rfl⟩ := ih hstages
    exact ⟨forall_mem_cons.mpr ⟨hbind, hbinds⟩, (Except.ok.inj h).symm⟩

/-- A plan that succeeds has come from its steps. -/
theorem planSteps_of_plan (h : plan g new specs verified cap = .ok p) :
    ∃ al lives blocks, PlanSteps g new specs verified p al lives blocks := by
  unfold plan at h
  cases hops : g.kernelOps new with
  | nil =>
    rw [hops] at h
    cases h
  | cons o rest =>
    rw [hops] at h
    dsimp only at h
    rw [← hops] at h
    obtain ⟨al, hal, h⟩ := bind_eq_ok_iff.mp h
    obtain ⟨args, hargs, h⟩ := bind_eq_ok_iff.mp h
    obtain ⟨stages, hstages, h⟩ := bind_eq_ok_iff.mp h
    obtain ⟨hnew, rfl⟩ := bindStageOp_eq_ok hargs
    obtain ⟨hbound, rfl⟩ := mapM_bindStageOp hstages
    obtain ⟨lives, hlives, h⟩ := bind_eq_ok_iff.mp h
    obtain ⟨blocks, hblocks, h⟩ := bind_eq_ok_iff.mp h
    split at h
    case isTrue =>
      obtain ⟨calls, hcalls, h⟩ := bind_eq_ok_iff.mp h
      obtain ⟨fills, hfills, h⟩ := bind_eq_ok_iff.mp h
      obtain ⟨workspace, hworkspace, h⟩ := bind_eq_ok_iff.mp h
      obtain rfl := Except.ok.inj h
      exact ⟨al, lives, blocks, hal, hbound, hnew, hlives, hblocks, hcalls, hfills, hworkspace, rfl⟩
    case isFalse => cases h

/-- The absorbed ops are ops of the graph with a kernel. -/
theorem kernelOps_sublist : (g.kernelOps new).Sublist g.kernels := by
  unfold BaseGraph.kernelOps BaseGraph.kernels
  rw [filter_comm]
  exact filter_sublist

theorem mem_kernels_of_absorbed {o : KernelOp} (h : o ∈ g.kernelOps new) : o ∈ g.kernels :=
  kernelOps_sublist.subset h

end

/-! ### The parameters of the new op -/

section
variable {g : BaseGraph} {new : NewOp} {specs : Specs}

section
variable (hplain : new.op.subOps = []) (hbound : bindAny specs new.op = .ok (newArgs specs new))
include hplain hbound

/-- The arguments of a new op that is not fused are for the parameters of its kernel. -/
theorem map_param_newArgs :
    (newArgs specs new).map Arg.param = entryParams specs new := by
  unfold bindAny at hbound
  rw [if_pos (by rw [hplain]; rfl)] at hbound
  obtain ⟨params, hparams, hargs⟩ := bound_of_bindOp hbound
  unfold entryParams
  rw [hparams]
  exact hargs.params

/-- The entry has the pointer of an argument under the name of its parameter. -/
theorem entryPointer_eq (hnames : ((entryParams specs new).map Param.name).Nodup) {a : Arg}
    (ha : a ∈ newArgs specs new) {t : String} (ht : pointee a.value = some t) :
    entryPointer g (entryOf specs new) a.param.name =
      some ⟨.tensor (g.rootOf t).1, g.byteOffset t⟩ := by
  have hentry : (entryOf specs new).map (fun pa => (pa.1.name, pa.2)) =
      (newArgs specs new).map fun a => (a.param.name, a) := by
    unfold entryOf
    rw [← map_param_newArgs hplain hbound, zip_map_left, map_map]
    generalize newArgs specs new = args
    induction args with
    | nil => rfl
    | cons b rest ih =>
      rw [zip_cons_cons, map_cons, ih]
      rfl
  have hlookup : ((entryOf specs new).map fun pa => (pa.1.name, pa.2)).lookup a.param.name =
      some a := by
    rw [hentry]
    refine lookup_eq_some (mem_map_of_mem ha) fun b hb => ?_
    obtain ⟨b', hb', heq⟩ := mem_map.mp hb
    rw [Prod.mk.injEq] at heq
    obtain ⟨hname, rfl⟩ := heq
    rw [← map_param_newArgs hplain hbound, map_map] at hnames
    exact inj_on_of_nodup_map hnames hb' ha hname
  unfold entryPointer
  rw [hlookup, Option.bind_eq_bind, Option.bind_some, ht]
  rfl

end

/-- The entry has no pointer under a name that is not a parameter's. -/
theorem entryPointer_eq_none {name : String} (h : name ∉ (entryParams specs new).map Param.name) :
    entryPointer g (entryOf specs new) name = none := by
  have hlookup : ((entryOf specs new).map fun pa => (pa.1.name, pa.2)).lookup name = none := by
    rw [lookup_eq_none_iff]
    rintro ⟨name', a⟩ hmem
    obtain ⟨pa, hpa, heq⟩ := mem_map.mp hmem
    rw [Prod.mk.injEq] at heq
    have hparam : pa.1 ∈ entryParams specs new := (of_mem_zip hpa).1
    rw [bne_iff_ne]
    rintro rfl
    exact h (mem_map.mpr ⟨pa.1, hparam, heq.1⟩)
  unfold entryPointer
  rw [hlookup]
  rfl

end

open PyDict

section
variable (g : BaseGraph) (new : NewOp) (specs : Specs)

/-! ### Absorbed ops -/

/-- An absorbed op reads a tensor. -/
def ReadsAt (i : ℕ) (t : String) : Prop :=
  ∃ o, (g.kernelOps new)[i]? = some o ∧ t ∈ inTensors (argsOf specs o)

/-- An absorbed op writes a tensor. -/
def WritesAt (i : ℕ) (t : String) : Prop :=
  ∃ o, (g.kernelOps new)[i]? = some o ∧ t ∈ outTensors (argsOf specs o)

/-- An absorbed op has a pointer into a root. -/
def TouchesAt (i : ℕ) (r : String) : Prop :=
  ∃ t, (ReadsAt g new specs i t ∨ WritesAt g new specs i t) ∧ (g.rootOf t).1 = r

/-- The new op has a pointer into a root. -/
def IsBound (r : String) : Prop :=
  ∃ a ∈ newArgs specs new, ∃ t, knownPointee g a = some t ∧ (g.rootOf t).1 = r

/-- A root is in use while an absorbed op runs: it is touched before or now, and now or later.
Constants are always in use. -/
def LiveAt (i : ℕ) (r : String) : Prop :=
  (g.constOf r).isSome ∨
    (∃ j ≤ i, TouchesAt g new specs j r) ∧ ∃ k, i ≤ k ∧ TouchesAt g new specs k r

/-- The new op takes the place of the absorbed ops: they write what it writes, and do not write what
it reads. -/
structure Replaces : Prop where
  inputs : ∀ a ∈ newArgs specs new, ∀ t, a.value = .input t →
    ∀ o ∈ g.kernelOps new, (g.rootOf t).1 ∉ outTensors (argsOf specs o)
  produces : ∃ a ∈ newArgs specs new, ∃ t, a.value = .output t
  outputs : ∀ a ∈ newArgs specs new, ∀ t, a.value = .output t → t ∈ g.tensors.keys ∧
    ∃ o ∈ g.kernelOps new, (g.rootOf t).1 ∈ outTensors (argsOf specs o)
  scratch : ∀ a ∈ newArgs specs new, ∀ t, a.value = .scratch t →
    (∃ o ∈ g.kernelOps new, ∃ u ∈ inTensors (argsOf specs o), (g.rootOf u).1 = (g.rootOf t).1) →
      ∃ o ∈ g.kernelOps new, (g.rootOf t).1 ∈ outTensors (argsOf specs o)
  /-- What it writes are whole buffers. -/
  whole : ∀ a ∈ newArgs specs new, ∀ t, written? a.value = some t →
    g.byteOffset t ≤ 0 ∧ g.bytes (g.rootOf t).1 ≤ g.byteOffset t + g.bytes t

/-- The names of parameters: those of a signature are distinct, and in the signature of a fused op,
where all names have the letter of their stage in front, none is the name of a pointer of a
stage. -/
structure EntryNames : Prop where
  distinct : new.op.subOps = [] → ((entryParams specs new).map Param.name).Nodup
  lettered : new.op.subOps ≠ [] → ∀ a ∈ newArgs specs new, (pointee a.value).isSome →
    a.param.name ∉ (entryParams specs new).map Param.name

/-! ### Soundness -/

/-- Where a tensor is: in the buffer of the new op's pointer, or in the workspace. -/
def Located (p : CompositePlan) (t : String) (a : Addr) : Prop :=
  (IsBound g new specs (g.rootOf t).1 ∧ a = ⟨.tensor (g.rootOf t).1, g.byteOffset t⟩) ∨
    ¬IsBound g new specs (g.rootOf t).1 ∧ ∃ start n : ℕ, ((g.rootOf t).1, start, n) ∈ p.workspace ∧
      a = ⟨.workspace, start + g.byteOffset t⟩

/-- A pointer is passed to the tensor that it stands for. -/
def Passed.Right (p : CompositePlan) : Passed → Prop
  | .read t a => Located g new specs p t a
  | .write t a => Located g new specs p t a
  | .value _ => True

/-- The data of the constants that have been verified: the elements above the diagonal are one. -/
def MasksVerified (verified : List String) (contents : Contents) : Prop :=
  ∀ r data, g.constOf r = some data → data.1 ∈ verified →
    ∀ cols rows rest, data.2.shape.reverse = cols :: rows :: rest →
      ∀ x : ℤ, 0 ≤ x → x < g.bytes r → contents r x = maskByte rows cols x

/-- The inputs of the new op are there. -/
def InputsHeld (values : Contents) (m : Memory) : Prop :=
  ∀ a ∈ newArgs specs new, ∀ t, a.value = .input t →
    Holds m ⟨.tensor (g.rootOf t).1, 0⟩ (g.bytes (g.rootOf t).1) (values (g.rootOf t).1)

/-- What the calls of a plan do. -/
structure PlanSound (verified : List String) (p : CompositePlan) : Prop where
  /-- Every pointer expression addresses the tensor. -/
  addressed : ∀ call ∈ p.calls, ∃ passed, evalCall g specs (entryOf specs new) call = .ok passed ∧
    ∀ x ∈ passed, x.Right g new specs p
  inside : ∀ r start n, (r, start, n) ∈ p.workspace → start + g.bytes r ≤ p.wsBytes
  /-- Tensors that live at the same call are apart; masks always live. -/
  disjoint : ∀ (i : ℕ) (r : String) (start n : ℕ) (r' : String) (start' n' : ℕ),
    (r, start, n) ∈ p.workspace → (r', start', n') ∈ p.workspace → r ≠ r' →
      LiveAt g new specs i r → LiveAt g new specs i r' →
        start + g.bytes r ≤ start' ∨ start' + g.bytes r' ≤ start
  /-- What is read has been written, is an input, or is a mask that has been filled. -/
  initialised : ∀ i t, ReadsAt g new specs i t →
    (∃ a ∈ newArgs specs new, ∃ u, a.value = .input u ∧ (g.rootOf u).1 = (g.rootOf t).1) ∨
      (∃ f ∈ p.fills, ∃ n : ℕ, ((g.rootOf t).1, f.start, n) ∈ p.workspace) ∨
        ∃ j < i, WritesAt g new specs j (g.rootOf t).1
  /-- What is written in a buffer of the new op is part of its outputs and its scratch. -/
  confined : ∀ i t, WritesAt g new specs i t → IsBound g new specs t →
    ∃ a ∈ newArgs specs new, ∃ u, written? a.value = some u ∧ (g.rootOf u).1 = t ∧
      g.byteOffset u ≤ 0 ∧ g.bytes t ≤ g.byteOffset u + g.bytes u
  /-- In the end the outputs are what the graph computes. -/
  value : ∀ (K : Behaviour) (contents : Contents) (m : Memory), MasksVerified g verified contents →
    InputsHeld g new specs (baseValues K g specs contents) m →
      ∃ m', runComposite g specs (entryOf specs new) K p m = .ok m' ∧
        ∀ a ∈ newArgs specs new, ∀ t, a.value = .output t →
          Holds m' ⟨.tensor (g.rootOf t).1, 0⟩ (g.bytes (g.rootOf t).1)
            (baseValues K g specs contents (g.rootOf t).1)

/-- The tensor whose address the plan takes as given for a root. -/
def baseOffset (r : String) : ℤ :=
  (((boundRoots g (PyDict.ofList g.views) (newArgs specs new)).get? r).map RootParam.offset).getD 0

/-- The blocks that the linear scan has for the tensors of the absorbed ops. -/
def firstFit (verified : List String) : Except PlanError (List (LinearScan.Block String)) := do
  let al ← aliases g
  let lives ← touchAll g al (boundRoots g al (newArgs specs new)) verified
    ((g.kernelOps new).map fun o => (o, argsOf specs o))
  placeRoots g lives

/-- The condition on the new op and the absorbed ops. -/
structure PlanClear (verified : List String) : Prop where
  /-- The new op is not fused. -/
  plain : new.op.subOps = []
  /-- Of tensors of booleans no part is addressed that is at another offset. -/
  booleans : ∀ i t, ReadsAt g new specs i t ∨ WritesAt g new specs i t →
    g.dtypeOf (g.rootOf t).1 = .b8 → (g.rootOf t).2 = baseOffset g new specs (g.rootOf t).1
  /-- Beyond the horizon of the masks, the linear scan has no tensor in the way of a mask. -/
  horizon : ∀ blocks, firstFit g new specs verified = .ok blocks → ∀ b ∈ blocks, ∀ b' ∈ blocks,
    (g.constOf b.item.key).isSome → g.constOf b'.item.key = none →
      (∀ i, TouchesAt g new specs i b'.item.key → 2 ^ 30 < i) →
        b.start + g.bytes b.item.key ≤ b'.start ∨ b'.start + g.bytes b'.item.key ≤ b.start

end

/-! ### Bound roots and touches -/

section
variable {g : BaseGraph} {new : NewOp} {specs : Specs} {verified : List String}
  {p : CompositePlan} {al : Aliases} {lives : Lifetimes}
  {blocks : List (LinearScan.Block String)} {args : List Arg} {t r : String} {i start : ℕ}
  {b : LinearScan.Block String}

theorem mem_inTensors :
    t ∈ inTensors args ↔ ∃ a ∈ args, a.value = .input t := by
  unfold inTensors
  rw [mem_filterMap]
  refine exists_congr fun a => and_congr_right fun _ => ?_
  cases a.value <;> simp [ArgValue.input?]

theorem mem_outTensors :
    t ∈ outTensors args ↔ ∃ a ∈ args, a.value = .output t ∨ a.value = .scratch t := by
  unfold outTensors
  rw [mem_filterMap]
  refine exists_congr fun a => and_congr_right fun _ => ?_
  cases a.value <;> simp [written?]

theorem pointee_iff {v : ArgValue} :
    pointee v = some t ↔ v = .input t ∨ v = .output t ∨ v = .scratch t := by
  cases v <;> simp [pointee]

/-- Pointers are read or written through. -/
theorem readsAt_or_writesAt :
    ReadsAt g new specs i t ∨ WritesAt g new specs i t ↔
      ∃ o, (g.kernelOps new)[i]? = some o ∧ ∃ a ∈ argsOf specs o, pointee a.value = some t := by
  unfold ReadsAt WritesAt
  simp only [mem_inTensors, mem_outTensors, pointee_iff]
  constructor
  · rintro (⟨o, ho, a, ha, hvalue⟩ | ⟨o, ho, a, ha, hvalue⟩)
    · exact ⟨o, ho, a, ha, .inl hvalue⟩
    · exact ⟨o, ho, a, ha, .inr hvalue⟩
  · rintro ⟨o, ho, a, ha, hin | hout⟩
    · exact .inl ⟨o, ho, a, ha, hin⟩
    · exact .inr ⟨o, ho, a, ha, hout⟩

theorem mem_stages {stage : KernelOp × List Arg} :
    ((g.kernelOps new).map fun o => (o, argsOf specs o))[i]? = some stage ↔
      (g.kernelOps new)[i]? = some stage.1 ∧ stage.2 = argsOf specs stage.1 := by
  rw [getElem?_map, Option.map_eq_some_iff]
  constructor
  · rintro ⟨o, ho, rfl⟩
    exact ⟨ho, rfl⟩
  · rintro ⟨ho, hargs⟩
    exact ⟨stage.1, ho, by rw [← hargs]⟩

variable (hwf : WellFormed specs g) (hsteps : PlanSteps g new specs verified p al lives blocks)
include hwf hsteps

theorem PlanSteps.root (t : String) : resolveTensor al t = g.rootOf t :=
  hwf.resolveTensor_eq hsteps.aliasesOk t

theorem PlanSteps.isBound_iff :
    r ∈ (boundRoots g al (newArgs specs new)).keys ↔ IsBound g new specs r := by
  rw [mem_keys_boundRoots]
  refine exists_congr fun a => and_congr_right fun _ => ?_
  constructor
  · rintro ⟨off, t, ht, hroot⟩
    exact ⟨t, ht, by rw [← hsteps.root hwf, hroot]⟩
  · rintro ⟨t, ht, rfl⟩
    exact ⟨(g.rootOf t).2, t, ht, hsteps.root hwf t⟩

omit hwf in
theorem PlanSteps.lifeSpec : LifeSpec g al (boundRoots g al (newArgs specs new)) verified
    (touches ((g.kernelOps new).map fun o => (o, argsOf specs o))) lives :=
  lifeSpec_of_touchAll hsteps.livesOk

/-- The touches are those of the absorbed ops. -/
theorem PlanSteps.touchesAt_iff : TouchesAt g new specs i r ↔
    ∃ e ∈ touches ((g.kernelOps new).map fun o => (o, argsOf specs o)),
      e.index = i ∧ e.Touches al r := by
  unfold TouchesAt
  simp only [readsAt_or_writesAt]
  constructor
  · rintro ⟨t, ⟨o, ho, a, ha, hpointee⟩, hroot⟩
    refine ⟨⟨i, o.name, a⟩, mem_touches.mpr ⟨(o, argsOf specs o), ?_, rfl, ha⟩, rfl, t, hpointee,
      ?_⟩
    · exact mem_stages.mpr ⟨ho, rfl⟩
    · rw [hsteps.root hwf, hroot]
  · rintro ⟨e, he, rfl, t, hpointee, hroot⟩
    obtain ⟨stage, hget, -, harg⟩ := mem_touches.mp he
    obtain ⟨ho, hargs⟩ := mem_stages.mp hget
    refine ⟨t, ⟨stage.1, ho, e.arg, hargs ▸ harg, hpointee⟩, ?_⟩
    rw [← hsteps.root hwf, hroot]

/-! ### The workspace -/

omit hwf in
theorem PlanSteps.firstFit_eq : firstFit g new specs verified = .ok blocks := by
  unfold firstFit
  rw [hsteps.aliasesOk]
  show (touchAll g al _ verified _ >>= placeRoots g) = _
  rw [hsteps.livesOk]
  exact hsteps.blocksOk

omit hwf in
/-- The workspace lists the blocks. -/
theorem PlanSteps.mem_workspace :
    (∃ n, (r, start, n) ∈ p.workspace) ↔ ∃ b ∈ blocks, b.item.key = r ∧ b.start = start := by
  constructor
  · rintro ⟨n, hmem⟩
    obtain ⟨b, hb, hregion⟩ := exists_of_mem_mapM hsteps.workspace hmem
    obtain ⟨info, -, heq⟩ := bind_eq_ok_iff.mp hregion
    have heq' := Except.ok.inj heq
    rw [Prod.mk.injEq, Prod.mk.injEq] at heq'
    exact ⟨b, hb, heq'.1, heq'.2.1⟩
  · rintro ⟨b, hb, rfl, rfl⟩
    obtain ⟨region, hregion, hok⟩ := exists_of_mapM_eq_ok hsteps.workspace hb
    obtain ⟨info, -, heq⟩ := bind_eq_ok_iff.mp hok
    exact ⟨info.planBytes, by rw [Except.ok.inj heq]; exact hregion⟩

omit hwf in
theorem PlanSteps.start_eq {start' n n' : ℕ} (h : (r, start, n) ∈ p.workspace)
    (h' : (r, start', n') ∈ p.workspace) : start = start' := by
  obtain ⟨b, hb, hkey, rfl⟩ := hsteps.mem_workspace.mp ⟨n, h⟩
  obtain ⟨b', hb', hkey', rfl⟩ := hsteps.mem_workspace.mp ⟨n', h'⟩
  rw [inj_on_of_nodup_map (nodup_key_blocks hsteps.blocksOk) hb hb' (hkey.trans hkey'.symm)]

omit hwf in
theorem PlanSteps.exists_block (h : r ∈ lives.first.keys) :
    ∃ b ∈ blocks, b.item.key = r := by
  rw [← (map_key_blocks hsteps.blocksOk).mem_iff, mem_map] at h
  exact h

omit hwf in
theorem PlanSteps.key_mem_first (hb : b ∈ blocks) :
    b.item.key ∈ lives.first.keys :=
  (map_key_blocks hsteps.blocksOk).mem_iff.mp (mem_map_of_mem hb)

/-- A root that is touched and not bound has a block. -/
theorem PlanSteps.first_of_touches (h : TouchesAt g new specs i r) (hbound : ¬IsBound g new specs r) :
    r ∈ lives.first.keys := by
  rw [← hsteps.isBound_iff hwf] at hbound
  obtain ⟨e, he, -, htouch⟩ := (hsteps.touchesAt_iff hwf).mp h
  cases hconst : g.constOf r with
  | none =>
    obtain ⟨f, l, hf, -⟩ := hsteps.lifeSpec.spans e he r htouch hbound hconst
    exact mem_keys_of_get? hf
  | some data =>
    obtain ⟨-, hf, -⟩ := hsteps.lifeSpec.masks e he r htouch hbound data hconst
    exact mem_keys_of_get? hf

/-- A root with a block is touched and not bound. -/
theorem PlanSteps.touched_of_block (hb : b ∈ blocks) :
    ¬IsBound g new specs b.item.key ∧ ∃ i, TouchesAt g new specs i b.item.key := by
  obtain ⟨f, hf⟩ := mem_keys_iff.mp (hsteps.key_mem_first hb)
  obtain ⟨hbound, e, he, htouch, -⟩ := hsteps.lifeSpec.firsts _ f hf
  refine ⟨fun h => hbound ((hsteps.isBound_iff hwf).mpr h), e.index, ?_⟩
  exact (hsteps.touchesAt_iff hwf).mpr ⟨e, he, rfl, htouch⟩

/-- The lifetime of a block: all touches of its root are inside, and a constant lives from the first
call to the horizon. -/
theorem PlanSteps.lifetime (hb : b ∈ blocks) :
    (∀ i, TouchesAt g new specs i b.item.key → g.constOf b.item.key = none →
      b.item.first ≤ i ∧ i ≤ b.item.last) ∧
    (g.constOf b.item.key = none → ∃ i, TouchesAt g new specs i b.item.key ∧ b.item.first = i) ∧
    ((g.constOf b.item.key).isSome → b.item.first = -1 ∧ b.item.last = 2 ^ 30) := by
  obtain ⟨info, -, hfirst, hlast, -⟩ := item_eq_of_mem hsteps.blocksOk hb
  obtain ⟨hnot, i₀, htouched⟩ := hsteps.touched_of_block hwf hb
  rw [← hsteps.isBound_iff hwf] at hnot
  refine ⟨fun i htouch hconst => ?_, fun hconst => ?_, fun hconst => ?_⟩
  · obtain ⟨e, he, rfl, htouch'⟩ := (hsteps.touchesAt_iff hwf).mp htouch
    obtain ⟨f, l, hf, hl, hle, hle'⟩ := hsteps.lifeSpec.spans e he _ htouch' hnot hconst
    rw [hfirst, hlast, hf, hl]
    exact ⟨hle, hle'⟩
  · obtain ⟨f, hf⟩ := mem_keys_iff.mp (hsteps.key_mem_first hb)
    obtain ⟨-, e, he, htouch, hindex⟩ := hsteps.lifeSpec.firsts _ f hf
    refine ⟨e.index, (hsteps.touchesAt_iff hwf).mpr ⟨e, he, rfl, htouch⟩, ?_⟩
    rw [hfirst, hf]
    exact hindex hconst
  · obtain ⟨data, hdata⟩ := Option.isSome_iff_exists.mp hconst
    obtain ⟨e, he, -, htouch⟩ := (hsteps.touchesAt_iff hwf).mp htouched
    obtain ⟨-, hf, hl, -⟩ := hsteps.lifeSpec.masks e he _ htouch hnot data hdata
    rw [hfirst, hlast, hf, hl]
    exact ⟨rfl, rfl⟩

omit hwf in
/-- A block has room for its root. -/
theorem PlanSteps.bytes_le (hb : b ∈ blocks) :
    b.start + g.bytes b.item.key ≤ b.stop := by
  obtain ⟨info, hinfo, -, -, hsize⟩ := item_eq_of_mem hsteps.blocksOk hb
  have hle : bufferBytes info.dtype ≤ elemBytes info.dtype := by
    cases info.dtype <;> decide
  have hbytes : g.bytes b.item.key = info.numel * bufferBytes info.dtype := by
    unfold BaseGraph.bytes
    rw [hinfo]
    rfl
  have hplan : info.numel * bufferBytes info.dtype ≤ info.planBytes := Nat.mul_le_mul_left _ hle
  unfold LinearScan.Block.stop aligned at *
  omega

/-- Blocks of roots that live at the same call are apart. -/
theorem PlanSteps.apart (hclear : PlanClear g new specs verified) {b' : LinearScan.Block String}
    (hb : b ∈ blocks) (hb' : b' ∈ blocks) (hne : b.item.key ≠ b'.item.key)
    (hlive : LiveAt g new specs i b.item.key) (hlive' : LiveAt g new specs i b'.item.key) :
    b.start + g.bytes b.item.key ≤ b'.start ∨ b'.start + g.bytes b'.item.key ≤ b.start := by
  have hroom := hsteps.bytes_le hb
  have hroom' := hsteps.bytes_le hb'
  have hmeets : b.item.Meets b'.item → b.start + g.bytes b.item.key ≤ b'.start ∨
      b'.start + g.bytes b'.item.key ≤ b.start := by
    intro hmeets
    rcases apart_blocks hsteps.blocksOk hb hb' hne hmeets with h | h
    · exact .inl (hroom.trans h)
    · exact .inr (hroom'.trans h)
  obtain ⟨hspan, hfirst, hmask⟩ := hsteps.lifetime hwf hb
  obtain ⟨hspan', hfirst', hmask'⟩ := hsteps.lifetime hwf hb'
  cases hconst : g.constOf b.item.key with
  | some data =>
    obtain ⟨hf, hl⟩ := hmask (by rw [hconst]; rfl)
    cases hconst' : g.constOf b'.item.key with
    | some data' =>
      obtain ⟨hf', hl'⟩ := hmask' (by rw [hconst']; rfl)
      refine hmeets ?_
      unfold LinearScan.Item.Meets
      omega
    | none =>
      obtain ⟨k, hk, hk'⟩ := hfirst' hconst'
      obtain ⟨-, hkl⟩ := hspan' k hk hconst'
      by_cases hlate : b'.item.first ≤ 2 ^ 30
      · refine hmeets ?_
        unfold LinearScan.Item.Meets
        omega
      · refine hclear.horizon _ hsteps.firstFit_eq _ hb _ hb' (by rw [hconst]; rfl) hconst'
          fun j hj => ?_
        obtain ⟨hfj, -⟩ := hspan' j hj hconst'
        omega
  | none =>
    obtain ⟨k, hk, hk'⟩ := hfirst hconst
    obtain ⟨-, hkl⟩ := hspan k hk hconst
    cases hconst' : g.constOf b'.item.key with
    | some data' =>
      obtain ⟨hf', hl'⟩ := hmask' (by rw [hconst']; rfl)
      by_cases hlate : b.item.first ≤ 2 ^ 30
      · refine hmeets ?_
        unfold LinearScan.Item.Meets
        omega
      · refine (hclear.horizon _ hsteps.firstFit_eq _ hb' _ hb (by rw [hconst']; rfl) hconst
          fun j hj => ?_).symm
        obtain ⟨hfj, -⟩ := hspan j hj hconst
        omega
    | none =>
      -- both are touched before or now, and now or later
      rcases hlive with hsome | ⟨⟨j, hj, htouch⟩, l, hl, hlater⟩
      · rw [hconst] at hsome
        cases hsome
      rcases hlive' with hsome | ⟨⟨j', hj', htouch'⟩, l', hl', hlater'⟩
      · rw [hconst'] at hsome
        cases hsome
      have h₁ := hspan j htouch hconst
      have h₂ := hspan l hlater hconst
      have h₃ := hspan' j' htouch' hconst'
      have h₄ := hspan' l' hlater' hconst'
      refine hmeets ?_
      unfold LinearScan.Item.Meets
      omega

end

/-! ### Addresses -/

/-- Where a plan finds a root. -/
def rootAddr (roots : PyDict String RootParam) (blocks : List (LinearScan.Block String))
    (r : String) : Addr :=
  if r ∈ roots.keys then ⟨.tensor r, 0⟩ else ⟨.workspace, ((placeOf blocks).get? r).getD 0⟩

/-- Where a plan finds a tensor. -/
def tensorAddr (g : BaseGraph) (roots : PyDict String RootParam)
    (blocks : List (LinearScan.Block String)) (t : String) : Addr :=
  ⟨(rootAddr roots blocks (g.rootOf t).1).buffer,
    (rootAddr roots blocks (g.rootOf t).1).offset + g.byteOffset t⟩

/-- What a plan passes for an argument. -/
def passedFor (g : BaseGraph) (roots : PyDict String RootParam)
    (blocks : List (LinearScan.Block String)) (a : Arg) : Passed :=
  match a.value with
  | .input t => .read t (tensorAddr g roots blocks t)
  | .output t | .scratch t => .write t (tensorAddr g roots blocks t)
  | v => .value v

section
variable {g : BaseGraph} {new : NewOp} {specs : Specs} {verified : List String}
  {p : CompositePlan} {al : Aliases} {lives : Lifetimes}
  {blocks : List (LinearScan.Block String)} {t : String} {info : TensorInfo} {i : ℕ}
  {call : KernelOp × List CallArg}

theorem dtypeOf_of_info (h : g.info t = .ok info) :
    g.dtypeOf t = info.dtype := by
  unfold BaseGraph.dtypeOf
  rw [get?_of_info h]
  rfl

/-- Four bytes are counted for booleans, and for all other types as many as they have. -/
theorem elemBytes_eq {d : IrDtype} (h : d ≠ .b8) : elemBytes d = bufferBytes d := by
  cases d with
  | b8 => exact absurd rfl h
  | _ => rfl

variable (hwf : WellFormed specs g) (hsteps : PlanSteps g new specs verified p al lives blocks)
include hwf hsteps

theorem PlanSteps.byteOffset_eq (hinfo : g.info (resolveTensor al t).1 = .ok info) :
    g.byteOffset t = (g.rootOf t).2 * bufferBytes info.dtype := by
  unfold BaseGraph.byteOffset
  rw [← hwf.dtypeOf_root t, ← hsteps.root hwf, dtypeOf_of_info hinfo]

/-- The offset that a plan counts is the offset in bytes. -/
theorem PlanSteps.offset_eq (hclear : PlanClear g new specs verified)
    (htouch : ReadsAt g new specs i t ∨ WritesAt g new specs i t)
    (hinfo : g.info (resolveTensor al t).1 = .ok info) :
    ((g.rootOf t).2 - baseOffset g new specs (g.rootOf t).1) * (elemBytes info.dtype : ℤ) =
      ((g.rootOf t).2 - baseOffset g new specs (g.rootOf t).1) * bufferBytes info.dtype := by
  by_cases hbool : info.dtype = .b8
  · rw [hclear.booleans i t htouch ?_, sub_self, zero_mul, zero_mul]
    rw [← hsteps.root hwf, dtypeOf_of_info hinfo, hbool]
  · rw [elemBytes_eq hbool]

/-- The pointer of an absorbed op addresses the tensor. -/
theorem PlanSteps.evalPtr_eq (hnames : EntryNames new specs)
    (hclear : PlanClear g new specs verified)
    (htouch : ReadsAt g new specs i t ∨ WritesAt g new specs i t) {e : PtrExpr}
    (he : ptrExpr g al (boundRoots g al (newArgs specs new)) (placeOf blocks) t = .ok e) :
    evalPtr g (entryOf specs new) e =
      .ok (tensorAddr g (boundRoots g al (newArgs specs new)) blocks t) := by
  obtain ⟨info, hinfo, he⟩ := bind_eq_ok_iff.mp he
  have hoffset := hsteps.offset_eq hwf hclear htouch hinfo
  have hbytes := hsteps.byteOffset_eq hwf hinfo
  have hbase : baseOffset g new specs (g.rootOf t).1 =
      (((boundRoots g al (newArgs specs new)).get? (g.rootOf t).1).map
        RootParam.offset).getD 0 := by
    unfold baseOffset
    rw [aliases_eq_ok hsteps.aliasesOk]
  rw [hsteps.root hwf] at he
  unfold tensorAddr rootAddr
  split at he
  case h_1 q hq =>
    -- the new op has a pointer into the root
    rw [hq] at hbase
    change baseOffset g new specs (g.rootOf t).1 = q.offset at hbase
    obtain ⟨a, ha, ⟨u, hu, hroot⟩, hname⟩ := get?_boundRoots hq
    rw [hsteps.root hwf] at hroot
    have hpointee : pointee a.value = some u := (Option.filter_eq_some_iff.mp hu).1
    have huinfo : g.info (resolveTensor al u).1 = .ok info := by
      rw [hsteps.root hwf, hroot, ← hsteps.root hwf t]
      exact hinfo
    have hentry := entryPointer_eq (g := g) hclear.plain hsteps.boundNew
      (hnames.distinct hclear.plain) ha hpointee
    rw [hroot, hsteps.byteOffset_eq hwf huinfo, hroot] at hentry
    rw [if_pos (mem_keys_of_get? hq), ← Except.ok.inj he]
    unfold evalPtr
    dsimp only
    rw [hname, hentry]
    dsimp only
    rw [← hbase, hoffset, hbytes, hbase]
    congr 2
    rw [sub_mul]
    omega
  case h_2 start hnone hplace =>
    rw [hnone] at hbase
    change baseOffset g new specs (g.rootOf t).1 = 0 at hbase
    rw [hbase, sub_zero] at hoffset
    rw [if_neg (get?_eq_none_iff.mp hnone), ← Except.ok.inj he, hplace]
    rw [hoffset, hbytes]
    rfl
  case h_3 => cases he

/-- The arguments of an absorbed op are passed. -/
theorem PlanSteps.evalArg_eq (hnames : EntryNames new specs)
    (hclear : PlanClear g new specs verified) {o : KernelOp} (ho : (g.kernelOps new)[i]? = some o)
    {a : Arg} (ha : a ∈ argsOf specs o) {c : CallArg}
    (hc : callArg g al (boundRoots g al (newArgs specs new)) (placeOf blocks) a = .ok c) :
    evalArg g (entryOf specs new) (a, c) =
      .ok (passedFor g (boundRoots g al (newArgs specs new)) blocks a) := by
  have hpointer : ∀ t, pointee a.value = some t → ∀ e,
      ptrExpr g al (boundRoots g al (newArgs specs new)) (placeOf blocks) t = .ok e →
        evalPtr g (entryOf specs new) e =
          .ok (tensorAddr g (boundRoots g al (newArgs specs new)) blocks t) := by
    intro t ht e he
    exact hsteps.evalPtr_eq hwf hnames hclear (readsAt_or_writesAt.mpr ⟨o, ho, a, ha, ht⟩) he
  unfold callArg at hc
  unfold evalArg passedFor
  cases hvalue : a.value with
  | input t =>
    rw [hvalue] at hc
    obtain ⟨e, he, hc⟩ := bind_eq_ok_iff.mp hc
    rw [← Except.ok.inj hc]
    dsimp only
    rw [hpointer t (by rw [hvalue]; rfl) e he]
    rfl
  | output t =>
    rw [hvalue] at hc
    obtain ⟨e, he, hc⟩ := bind_eq_ok_iff.mp hc
    rw [← Except.ok.inj hc]
    dsimp only
    rw [hpointer t (by rw [hvalue]; rfl) e he]
    rfl
  | scratch t =>
    rw [hvalue] at hc
    obtain ⟨e, he, hc⟩ := bind_eq_ok_iff.mp hc
    rw [← Except.ok.inj hc]
    dsimp only
    rw [hpointer t (by rw [hvalue]; rfl) e he]
    rfl
  | weight key =>
    rw [hvalue] at hc
    rw [← Except.ok.inj hc]
  | null =>
    rw [hvalue] at hc
    rw [← Except.ok.inj hc]
  | scalar v =>
    rw [hvalue] at hc
    rw [← Except.ok.inj hc]

omit hwf in
/-- A call is the call of an absorbed op. -/
theorem PlanSteps.exists_of_call (h : p.calls[i]? = some call) :
    (g.kernelOps new)[i]? = some call.1 ∧
      (argsOf specs call.1).mapM (callArg g al (boundRoots g al (newArgs specs new))
        (placeOf blocks)) = .ok call.2 := by
  have hlen := length_of_mapM hsteps.calls
  have hi : i < ((g.kernelOps new).map fun o => (o, argsOf specs o)).length := by
    rw [← hlen]
    exact (List.getElem?_eq_some_iff.mp h).1
  obtain ⟨call', hget, hcall⟩ :=
    getElem?_of_mapM hsteps.calls (getElem?_eq_getElem hi)
  obtain rfl : call = call' := Option.some.inj (h.symm.trans hget)
  obtain ⟨cargs, hcargs, hcall⟩ := bind_eq_ok_iff.mp hcall
  obtain ⟨ho, hargs⟩ := mem_stages.mp (getElem?_eq_getElem hi)
  rw [← Except.ok.inj hcall]
  rw [hargs] at hcargs
  exact ⟨ho, hcargs⟩

/-- A call passes the arguments of its op. -/
theorem PlanSteps.evalCall_eq (hnames : EntryNames new specs)
    (hclear : PlanClear g new specs verified) (h : p.calls[i]? = some call) :
    evalCall g specs (entryOf specs new) call = .ok ((argsOf specs call.1).map
      (passedFor g (boundRoots g al (newArgs specs new)) blocks)) := by
  obtain ⟨ho, hcargs⟩ := hsteps.exists_of_call h
  have hall := mapM_eq_ok_iff.mp hcargs
  have harg : ∀ a ∈ argsOf specs call.1, ∀ c, callArg g al (boundRoots g al (newArgs specs new))
      (placeOf blocks) a = .ok c → evalArg g (entryOf specs new) (a, c) =
        .ok (passedFor g (boundRoots g al (newArgs specs new)) blocks a) :=
    fun a ha c hc => hsteps.evalArg_eq hwf hnames hclear ho ha hc
  unfold evalCall
  generalize argsOf specs call.1 = args at hall harg ⊢
  generalize call.2 = cargs at hall ⊢
  induction hall with
  | nil => rfl
  | @cons a c args cargs hac _ ih =>
    rw [zip_cons_cons, mapM_cons, harg a mem_cons_self c hac,
      ih fun b hb => harg b (mem_cons_of_mem a hb)]
    rfl

end

end ModelBlaster.Composite

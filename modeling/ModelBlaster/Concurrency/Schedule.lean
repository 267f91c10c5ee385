import ModelBlaster.KernelFusion.Chain
import ModelBlaster.Library.BitMask
import ModelBlaster.Library.EdgeList

/-!
# Launch plans

Which kernels of a partition may run at the same time. A call has to wait for the calls that its op
depends on, anywhere in the graph, and for those before it that touch the same memory. The plan has
the direct predecessors of every call, and a lane: calls of one slot that may overlap get copies of
the slot.

## Main definitions

* `ancestors`: the ops that an op depends on;
* `ranges`, `overlap`: the memory that a call touches;
* `closures`: the calls that a call has to wait for;
* `schedule`: the plan;
* `Capture`: the nodes of a graph, and what the next node is put behind;
* `flattenPreds`, `predsAt`: the predecessors, as the arrays of the generated code;
* `launch`: the graph of a plan;
* `MustWait`: why a call has to wait for one before it;
* `Edge`: the direct predecessors of a plan.

## Main results

* `testBit_ancestors`: the mask of an op has what it depends on;
* `testBit_closures`: the mask of a call has what it waits for;
* `transGen_edge_iff`: the paths of the plan are the order.
-/

namespace ModelBlaster.Concurrency

open KernelFusion BitMask

/-! ### Calls -/

/-- A buffer. An alias is a part of another buffer. -/
structure Buffer where
  /-- The base buffer and the offset in it, of an alias. -/
  base : Option (ℕ × ℤ)
  numel : ℤ
deriving DecidableEq, Repr

/-- An entry of `op_recs`, and the one of `conc_ops` for the same call. -/
structure Call where
  name : String
  /-- The kind of the op. -/
  op : String
  /-- The buffers that are read. -/
  inputs : List ℕ
  /-- The buffers that are written. -/
  outputs : List ℕ
  /-- The index of the op in the graph. -/
  full : ℕ
  slot : String
  stmt : String
  scratch : List ℕ
deriving DecidableEq, Repr

/-- A buffer or an op is not there. -/
inductive ScheduleError where
  | indexError
deriving DecidableEq, Repr

/-! ### Ancestors -/

/-- `producer` and `anc`, after some of the ops. -/
structure AncestorState where
  producer : PyDict String ℕ
  anc : List ℕ

/-- The ops that an op reads from, and theirs. -/
def inputAncestors (st : AncestorState) (inputs : List String) : ℕ :=
  inputs.foldl (fun a t => a ||| match st.producer.get? t with
    | some p => single p ||| st.anc.getD p 0
    | none => 0) 0

def ancestorStep (st : AncestorState) (o : KernelOp × ℕ) : AncestorState where
  producer := (o.1.outputs ++ o.1.internal).foldl (fun d t => d.set t o.2) st.producer
  anc := st.anc ++ [inputAncestors st o.1.inputs]

/-- `anc`: for every op the mask of the ops that it depends on. -/
def ancestors (ops : List KernelOp) : List ℕ :=
  (ops.zipIdx.foldl ancestorStep ⟨PyDict.empty, []⟩).anc

/-- The ops that an op depends on, among those of the partition. -/
def partitionAncestors (anc : List ℕ) (pos : PyDict ℕ ℕ) (full : ℕ) : Except ScheduleError ℕ :=
  match anc[full]? with
  | some a =>
    .ok ((bits a).foldl (fun m j => m ||| match pos.get? j with
      | some k => single k
      | none => 0) 0)
  | none => .error .indexError

/-! ### Memory -/

/-- A part of a base buffer. -/
structure Range where
  base : ℕ
  lo : ℤ
  hi : ℤ
deriving DecidableEq, Repr

/-- The part that a buffer is. -/
def rangeOf (bufs : List Buffer) (b : ℕ) : Except ScheduleError Range :=
  match bufs[b]? with
  | some buf =>
    match buf.base with
    | some (base, off) => .ok ⟨base, off, off + max buf.numel 1⟩
    | none => .ok ⟨b, 0, 0 + max buf.numel 1⟩
  | none => .error .indexError

/-- `_ranges` -/
def ranges (bufs : List Buffer) (ids : List ℕ) : Except ScheduleError (List Range) :=
  ids.mapM (rangeOf bufs)

/-- `_overlap` -/
def overlap (xs ys : List Range) : Bool :=
  xs.any fun x => ys.any fun y => x.base = y.base ∧ x.lo < y.hi ∧ y.lo < x.hi

/-- `rd`, `wr` and `serial` -/
structure Footprints where
  rd : List (List Range)
  wr : List (List Range)
  serial : List Bool

/-- Whether a call has to wait for one before it, though it does not depend on it. -/
def Footprints.hazard (f : Footprints) (j k : ℕ) : Bool :=
  f.serial.getD j false || f.serial.getD k false ||
    overlap (f.wr.getD j []) (f.rd.getD k [] ++ f.wr.getD k []) ||
      overlap (f.rd.getD j []) (f.wr.getD k [])

/-! ### Closure -/

/-- The mask of a call and the number of hazards, with one call more. -/
def addHazard (hazard : ℕ → ℕ → Bool) (k : ℕ) (st : ℕ × ℕ) (j : ℕ) : ℕ × ℕ :=
  if st.1.testBit j then st
  else if hazard j k then (st.1 ||| single j, st.2 + 1)
  else st

/-- The masks of the calls and the number of hazards, with the mask of one call more closed. -/
def closeStep (hazard : ℕ → ℕ → Bool) (st : List ℕ × ℕ) (k : ℕ) : List ℕ × ℕ :=
  let m := (List.range k).foldl (addHazard hazard k) (st.1.getD k 0, st.2)
  (st.1.set k ((bits m.1).foldl (fun acc j => acc ||| st.1.getD j 0) m.1), m.2)

/-- `A` and `hazards`: for every call the mask of the calls that it has to wait for. -/
def closures (hazard : ℕ → ℕ → Bool) (A : List ℕ) : List ℕ × ℕ :=
  (List.range A.length).foldl (closeStep hazard) (A, 0)

/-- `D`: for every call the mask of those that have to wait for it. -/
def descendants (A : List ℕ) : List ℕ :=
  A.zipIdx.foldl (fun D mk =>
    (bits mk.1).foldl (fun D j => D.modify j fun d => d ||| single mk.2) D)
    (List.replicate A.length 0)

/-- `conc_m`: for every call the mask of those that may overlap it. -/
def concurrentMasks (A D : List ℕ) : List ℕ :=
  (List.range A.length).map fun k =>
    (((single A.length - 1).ldiff (A.getD k 0)).ldiff (D.getD k 0)).ldiff (single k)

/-- `preds`: the direct predecessors. -/
def directPreds (A : List ℕ) : List (List ℕ) :=
  A.map fun m => bits (m.ldiff ((bits m).foldl (fun cover j => cover ||| A.getD j 0) 0))

/-! ### Lanes -/

/-- The lanes of the calls so far, and those of the slots. -/
structure LaneState where
  lane : List ℕ
  lanes : PyDict String ℕ

/-- The first number that is not taken; `n + 1` numbers are more than `n` calls take. -/
def firstFree (n : ℕ) (taken : List ℕ) : ℕ :=
  ((List.range (n + 1)).find? (· ∉ taken)).getD 0

/-- The lanes that calls of a slot have which may overlap a call. -/
def takenLanes (slots : List String) (lane : List ℕ) (slot : String) (mask : ℕ) : List ℕ :=
  ((List.range lane.length).filter fun j => slots[j]? = some slot ∧ mask.testBit j).map
    (lane.getD · 0)

def laneStep (slots : List String) (st : LaneState) (call : String × ℕ) : LaneState :=
  let ln := firstFree slots.length (takenLanes slots st.lane call.1 call.2)
  { lane := st.lane ++ [ln]
    lanes := st.lanes.set call.1 (max ((st.lanes.get? call.1).getD 1) (ln + 1)) }

/-- `lane` and `lanes` -/
def assignLanes (slots : List String) (conc : List ℕ) : LaneState :=
  (slots.zip conc).foldl (laneStep slots) ⟨[], PyDict.empty⟩

/-! ### Width -/

/-- `chain_of`, `chain_last` and `chain_mask` -/
structure Chains where
  of : List ℕ
  last : List ℕ
  mask : List ℕ

/-- The last chain whose end a call waits for. -/
def findChain (m : ℕ) (last : List ℕ) : Option ℕ :=
  (List.range last.length).reverse.find? fun c => m.testBit (last.getD c 0)

def chainStep (st : Chains) (call : ℕ × ℕ) : Chains :=
  match findChain call.1 st.last with
  | some c => ⟨st.of ++ [c], st.last.set c call.2, st.mask.modify c (· ||| single call.2)⟩
  | none => ⟨st.of ++ [st.last.length], st.last ++ [call.2], st.mask ++ [single call.2]⟩

/-- `width`: a call and the other chains that it may overlap. -/
def widths (A conc : List ℕ) : List ℕ :=
  let chains := A.zipIdx.foldl chainStep ⟨[], [], []⟩
  (List.range A.length).map fun k =>
    1 + ((List.range chains.mask.length).filter fun c =>
      c ≠ chains.of.getD k 0 ∧ chains.mask.getD c 0 &&& conc.getD k 0 ≠ 0).length

/-! ### The plan -/

/-- What `schedule` returns. -/
structure Plan where
  n : ℕ
  /-- The direct predecessors of every call. -/
  preds : List (List ℕ)
  lane : List ℕ
  /-- How many lanes the slots have that have more than one. -/
  lanes : List (String × ℕ)
  width : List ℕ
  concurrent : Bool
  edgesHazard : ℕ
  maxWidth : ℕ
  policy : String
  stmts : List String
  slots : List String
  names : List String
deriving DecidableEq, Repr

section
variable (serialKinds : List String)

/-- What the calls touch. `serialKinds` are the kinds with side effects beyond their outputs. -/
def footprints (calls : List Call) (bufs : List Buffer) : Except ScheduleError Footprints := do
  let rd ← calls.mapM fun c => ranges bufs c.inputs
  let wr ← calls.mapM fun c => ranges bufs (c.outputs ++ c.scratch)
  return ⟨rd, wr, calls.map fun c => c.op ∈ serialKinds⟩

/-- The masks of the calls before there are hazards. -/
def initialMasks (ops : List KernelOp) (calls : List Call) : Except ScheduleError (List ℕ) :=
  calls.mapM fun c =>
    partitionAncestors (ancestors ops) (PyDict.ofList (calls.map Call.full).zipIdx) c.full

/-- The plan, from what the calls have to wait for. -/
def planOf (calls : List Call) (policy : String) (A : List ℕ) (hazards : ℕ) : Plan :=
  let conc := concurrentMasks A (descendants A)
  let lanes := assignLanes (calls.map Call.slot) conc
  let width := widths A conc
  { n := calls.length
    preds := directPreds A
    lane := lanes.lane
    lanes := lanes.lanes.items.filter fun e => 1 < e.2
    width := width.map (min · 32)
    concurrent := conc.any (· ≠ 0)
    edgesHazard := hazards
    maxWidth := width.foldl max 1
    policy := policy
    stmts := calls.map Call.stmt
    slots := calls.map Call.slot
    names := calls.map Call.name }

/-- `schedule` -/
def schedule (ops : List KernelOp) (calls : List Call) (bufs : List Buffer) (policy : String) :
    Except ScheduleError Plan := do
  let A ← initialMasks ops calls
  let f ← footprints serialKinds calls bufs
  let closed := closures f.hazard A
  return planOf calls policy closed.1 closed.2

end

/-! ## Capturing a plan -/

/-! ### Graphs -/

/-- A stream that is captured. -/
structure Capture where
  /-- The dependencies of every node. -/
  nodes : List (List ℕ)
  /-- The stream's capture dependencies. -/
  deps : List ℕ
deriving DecidableEq, Repr

/-- A node is added behind the dependencies, and takes their place. -/
def Capture.addNode (c : Capture) : Capture := ⟨c.nodes ++ [c.deps], [c.nodes.length]⟩

/-- A call that adds a number of nodes. -/
def Capture.addNodes : ℕ → Capture → Capture
  | 0, c => c
  | m + 1, c => addNodes m c.addNode

/-- `mb_set_deps` -/
def Capture.setDeps (c : Capture) (v : List ℕ) : Capture :=
  { c with deps := (v.insertionSort (· ≤ ·)).dedup }

/-! ### Arrays -/

/-- `MB_PRED_OFS` and `MB_PRED` -/
def flattenPreds (preds : List (List ℕ)) : List ℕ × List ℕ :=
  preds.foldl (fun st p => (st.1 ++ [(st.2 ++ p).length], st.2 ++ p)) ([0], [])

/-- An array of the generated code: an empty one gets an element. -/
def cArray (vals : List ℕ) : List ℕ := if vals = [] then [0] else vals

/-- The elements of `MB_PRED` of a call. -/
def predsAt (ofs flat : List ℕ) (i : ℕ) : List ℕ :=
  (List.range' (ofs.getD i 0) (ofs.getD (i + 1) 0 - ofs.getD i 0)).map (flat.getD · 0)

/-! ### The launch -/

/-- The variables of `mb_conc_launch`. -/
structure LaunchState where
  capture : Capture
  /-- The last nodes of every call. -/
  term : List (List ℕ)
  hasSucc : List Bool
  /-- The last nodes of all calls so far. -/
  issued : List ℕ
  /-- The last nodes of the last exclusive call. -/
  barrier : List ℕ
deriving DecidableEq, Repr

section
variable (plan : Plan) (exclusive : ℕ → Bool) (adds : ℕ → Option ℕ) (start : Capture)

/-- The predecessors of a call, as the loop finds them. -/
def launchPreds (i : ℕ) : List ℕ :=
  let arrays := flattenPreds plan.preds
  predsAt (cArray arrays.1) (cArray arrays.2) i

/-- What a call is put behind. -/
def LaunchState.depsOf (st : LaunchState) (i : ℕ) : List ℕ :=
  let deps := (if exclusive i then st.issued else []) ++
    (launchPreds plan i).flatMap (st.term.getD · []) ++ st.barrier
  if deps = [] then start.deps else deps

/-- One call. `adds` is the number of nodes that it adds, unless it invalidates the capture. -/
def launchStep (st : LaunchState) (i : ℕ) : Option LaunchState := do
  let m ← adds i
  let capture := (st.capture.setDeps (st.depsOf plan exclusive start i)).addNodes m
  return {
    capture := capture
    term := st.term.set i capture.deps
    hasSucc := (launchPreds plan i).foldl (fun h p => h.set p true) st.hasSucc
    issued := st.issued ++ capture.deps
    barrier := if exclusive i then capture.deps else st.barrier }

/-- The calls before `n`. -/
def launchUpTo : ℕ → Option LaunchState
  | 0 => some {
      capture := start
      term := List.replicate plan.n []
      hasSucc := List.replicate plan.n false
      issued := []
      barrier := [] }
  | k + 1 => do
    let st ← launchUpTo k
    launchStep plan exclusive adds start st k

/-- What the stream is put behind at the end. -/
def LaunchState.join (st : LaunchState) : List ℕ :=
  let leaves := (List.range plan.n).filter fun i => !st.hasSucc.getD i false
  let fin := leaves.flatMap (st.term.getD · [])
  if fin = [] then start.deps else fin

/-- `mb_conc_launch`, on a stream that is captured. -/
def launch : Option Capture := do
  let st ← launchUpTo plan exclusive adds start plan.n
  return st.capture.setDeps (st.join plan start)

end

/-! ## The order of a plan -/

open List Fallible

/-! ### What an op depends on -/

/-- What an op writes, inside of it too. -/
def writtenBy (o : KernelOp) : List String := o.outputs ++ o.internal

/-- An op reads what another writes. -/
def ReadsFrom (ops : List KernelOp) (j i : ℕ) : Prop :=
  ∃ o o' t, ops[j]? = some o ∧ ops[i]? = some o' ∧ t ∈ writtenBy o ∧ t ∈ o'.inputs

/-- Every tensor has one producer, in front of its readers. -/
structure InOrder (ops : List KernelOp) : Prop where
  order : ops.Pairwise fun o o' =>
    (∀ t ∈ o.inputs, t ∉ writtenBy o') ∧ ∀ t ∈ writtenBy o, t ∉ writtenBy o'
  self : ∀ o ∈ ops, ∀ t ∈ o.inputs, t ∉ writtenBy o

section
variable {ops : List KernelOp} {j i m : ℕ} {o' o : KernelOp}

theorem InOrder.rel (h : InOrder ops) (hi : ops[i]? = some o) (hj : ops[j]? = some o') (hlt : i < j)
    :
    (∀ t ∈ o.inputs, t ∉ writtenBy o') ∧ ∀ t ∈ writtenBy o, t ∉ writtenBy o' := by
  obtain ⟨hi', rfl⟩ := List.getElem?_eq_some_iff.mp hi
  obtain ⟨hj', rfl⟩ := List.getElem?_eq_some_iff.mp hj
  exact pairwise_iff_getElem.mp h.order i j hi' hj' hlt

/-- An op reads from ops before it. -/
theorem ReadsFrom.lt (h : InOrder ops) (hreads : ReadsFrom ops j i) : j < i := by
  obtain ⟨o, o', t, hj, hi, hwrite, hread⟩ := hreads
  rcases Nat.lt_trichotomy j i with hlt | rfl | hlt
  · exact hlt
  · obtain rfl := Option.some.inj (hj.symm.trans hi)
    exact absurd hwrite (h.self o (mem_of_getElem? hj) t hread)
  · exact absurd hwrite ((h.rel hi hj hlt).1 t hread)

/-- A tensor has one producer. -/
theorem InOrder.eq_of_written (h : InOrder ops) (hi : ops[i]? = some o) (hj : ops[j]? = some o')
    {t : String} (ht : t ∈ writtenBy o) (ht' : t ∈ writtenBy o') : i = j := by
  rcases Nat.lt_trichotomy i j with hlt | heq | hlt
  · exact absurd ht' ((h.rel hi hj hlt).2 t ht)
  · exact heq
  · exact absurd ht ((h.rel hj hi hlt).2 t ht')

/-- What is known after the ops before `n`. -/
structure AncestorState.Spec (ops : List KernelOp) (n : ℕ) (st : AncestorState) : Prop where
  producer : ∀ t p, st.producer.get? t = some p ↔ p < n ∧ ∃ o, ops[p]? = some o ∧ t ∈ writtenBy o
  length : st.anc.length = n
  anc : ∀ i m, st.anc[i]? = some m → ∀ j,
    m.testBit j = true ↔ Relation.TransGen (ReadsFrom ops) j i

theorem get?_foldl_set (l : List String) (d : PyDict String ℕ) (i : ℕ) (t : String) :
    (l.foldl (fun d t => d.set t i) d).get? t = if t ∈ l then some i else d.get? t := by
  induction l generalizing d with
  | nil => simp
  | cons x rest ih =>
    rw [foldl_cons, ih, PyDict.get?_set]
    by_cases hrest : t ∈ rest
    · simp [hrest]
    · by_cases hx : t = x
      · simp [hx]
      · simp [hrest, hx]

/-- The mask of an op, from those of the ops before it. -/
theorem AncestorState.Spec.testBit_inputAncestors (h : InOrder ops) {st : AncestorState} {n : ℕ}
    (hst : AncestorState.Spec ops n st) (ho : ops[n]? = some o) (j : ℕ) :
    (inputAncestors st o.inputs).testBit j = true ↔ Relation.TransGen (ReadsFrom ops) j n := by
  rw [inputAncestors, testBit_foldl_or]
  constructor
  · rintro (hzero | ⟨t, ht, hbit⟩)
    · simp at hzero
    · split at hbit
      next p hp =>
        obtain ⟨hlt, o', ho', hwrite⟩ := (hst.producer t p).mp hp
        have hreads : ReadsFrom ops p n := ⟨o', o, t, ho', ho, hwrite, ht⟩
        rcases testBit_or_iff.mp hbit with hself | hanc
        · rw [testBit_single.mp hself]
          exact .single hreads
        · have hget : st.anc[p]? = some (st.anc.getD p 0) := by
            rw [getD_eq_getElem?_getD, getElem?_eq_getElem (hst.length ▸ hlt)]
            rfl
          exact ((hst.anc p _ hget j).mp hanc).tail hreads
      next => simp at hbit
  · intro hpath
    -- The last edge of the path is from a producer.
    obtain ⟨p, hfront, hlast⟩ : ∃ p, (j = p ∨ Relation.TransGen (ReadsFrom ops) j p) ∧
        ReadsFrom ops p n := by
      cases hpath with
      | single hreads => exact ⟨j, .inl rfl, hreads⟩
      | tail hpath hreads => exact ⟨_, .inr hpath, hreads⟩
    have hlt := hlast.lt h
    obtain ⟨o', o'', t, hp, hn, hwrite, hread⟩ := hlast
    obtain rfl := Option.some.inj (ho.symm.trans hn)
    refine .inr ⟨t, hread, ?_⟩
    rw [(hst.producer t p).mpr ⟨hlt, o', hp, hwrite⟩]
    rw [testBit_or_iff]
    rcases hfront with rfl | hfront
    · exact .inl (testBit_single.mpr rfl)
    · have hget : st.anc[p]? = some (st.anc.getD p 0) := by
        rw [getD_eq_getElem?_getD, getElem?_eq_getElem (hst.length ▸ hlt)]
        rfl
      exact .inr ((hst.anc p _ hget j).mpr hfront)

theorem AncestorState.Spec.step (h : InOrder ops) {st : AncestorState} {n : ℕ}
    (hst : AncestorState.Spec ops n st) {o : KernelOp} (ho : ops[n]? = some o) :
    AncestorState.Spec ops (n + 1) (ancestorStep st (o, n)) where
  producer := by
    intro t p
    show ((writtenBy o).foldl (fun d t => d.set t n) st.producer).get? t = some p ↔ _
    rw [get?_foldl_set]
    by_cases ht : t ∈ writtenBy o
    · rw [if_pos ht]
      constructor
      · rintro heq
        obtain rfl := Option.some.inj heq
        exact ⟨Nat.lt_succ_self _, o, ho, ht⟩
      · rintro ⟨-, o', ho', ht'⟩
        rw [h.eq_of_written ho ho' ht ht']
    · rw [if_neg ht, hst.producer]
      constructor
      · rintro ⟨hlt, hwrite⟩
        exact ⟨Nat.lt_succ_of_lt hlt, hwrite⟩
      · rintro ⟨hlt, o', ho', ht'⟩
        refine ⟨Nat.lt_of_le_of_ne (Nat.le_of_lt_succ hlt) ?_, o', ho', ht'⟩
        rintro rfl
        obtain rfl := Option.some.inj (ho.symm.trans ho')
        exact ht ht'
  length := by
    show (st.anc ++ [_]).length = n + 1
    rw [length_append, hst.length, length_singleton]
  anc := by
    intro i m hm j
    rcases Nat.lt_or_ge i n with hlt | hge
    · have hm' : (st.anc ++ [inputAncestors st o.inputs])[i]? = some m := hm
      rw [getElem?_append_left (hst.length ▸ hlt)] at hm'
      exact hst.anc i m hm' j
    · have hm' : (st.anc ++ [inputAncestors st o.inputs])[i]? = some m := hm
      rw [getElem?_append_right (hst.length ▸ hge), hst.length] at hm'
      obtain rfl : i = n := by
        have := (List.getElem?_eq_some_iff.mp hm').1
        rw [length_singleton] at this
        omega
      rw [Nat.sub_self] at hm'
      obtain rfl := Option.some.inj hm'
      exact hst.testBit_inputAncestors h ho j

theorem ancestorState_spec (h : InOrder ops) {front back : List KernelOp}
    (hsplit : ops = front ++ back) :
    AncestorState.Spec ops front.length (front.zipIdx.foldl ancestorStep ⟨PyDict.empty, []⟩) := by
  induction front using reverseRecOn generalizing back with
  | nil =>
    refine ⟨fun t p => ?_, rfl, fun i m hm => ?_⟩
    · simp [PyDict.get?, PyDict.empty]
    · cases hm
  | append_singleton front o ih =>
    rw [append_assoc] at hsplit
    have ho : ops[front.length]? = some o := by
      rw [hsplit, getElem?_append_right (Nat.le_refl _), Nat.sub_self]
      rfl
    rw [zipIdx_append, foldl_append, length_append]
    simpa using (ih hsplit).step h ho

/-- The masks of the ops so far have ops before them, and so do the producers. -/
structure AncestorState.Below (n : ℕ) (st : AncestorState) : Prop where
  producer : ∀ t p, st.producer.get? t = some p → p < n
  length : st.anc.length = n
  anc : ∀ i (m : ℕ), st.anc[i]? = some m → ∀ j, m.testBit j = true → j < i

theorem AncestorState.Below.step {st : AncestorState} {n : ℕ} (h : st.Below n) (o : KernelOp) :
    (ancestorStep st (o, n)).Below (n + 1) where
  producer := by
    intro t p hp
    have hp' : ((writtenBy o).foldl (fun d t => d.set t n) st.producer).get? t = some p := hp
    rw [get?_foldl_set] at hp'
    split_ifs at hp' with ht
    · obtain rfl := Option.some.inj hp'
      exact Nat.lt_succ_self _
    · exact Nat.lt_succ_of_lt (h.producer t p hp')
  length := by
    show (st.anc ++ [_]).length = n + 1
    rw [length_append, h.length, length_singleton]
  anc := by
    intro i m hm j hbit
    have hm' : (st.anc ++ [inputAncestors st o.inputs])[i]? = some m := hm
    rcases Nat.lt_or_ge i n with hlt | hge
    · rw [getElem?_append_left (h.length ▸ hlt)] at hm'
      exact h.anc i m hm' j hbit
    · rw [getElem?_append_right (h.length ▸ hge), h.length] at hm'
      rw [getElem?_singleton] at hm'
      split_ifs at hm' with hzero
      obtain rfl := Option.some.inj hm'
      rw [inputAncestors, testBit_foldl_or] at hbit
      rcases hbit with hzero | ⟨t, -, hbit⟩
      · simp at hzero
      · split at hbit
        next p hp =>
          have hlt := h.producer t p hp
          rcases testBit_or_iff.mp hbit with hself | hanc
          · rw [testBit_single.mp hself]
            omega
          · have hget : st.anc[p]? = some (st.anc.getD p 0) := by
              rw [getD_eq_getElem?_getD, getElem?_eq_getElem (h.length ▸ hlt)]
              rfl
            have := h.anc p _ hget j hanc
            omega
        next => simp at hbit

/-- The ops in the mask of an op come before it. -/
theorem ancestors_below (hm : (ancestors ops)[i]? = some m) (hbit : m.testBit j = true) :
    j < i := by
  have hbelow : (ops.zipIdx.foldl ancestorStep ⟨PyDict.empty, []⟩).Below ops.length := by
    clear hm
    induction ops using reverseRecOn with
    | nil =>
      refine ⟨fun t p hp => ?_, rfl, fun i m hm => ?_⟩
      · simp [PyDict.get?, PyDict.empty] at hp
      · cases hm
    | append_singleton front o ih =>
      rw [zipIdx_append, foldl_append, length_append]
      simpa using ih.step o
  exact hbelow.anc i m hm j hbit

/-- The mask of an op has the ops that it depends on. -/
theorem testBit_ancestors (h : InOrder ops) (hm : (ancestors ops)[i]? = some m) (j : ℕ) :
    m.testBit j = true ↔ Relation.TransGen (ReadsFrom ops) j i :=
  (ancestorState_spec h (append_nil ops).symm).anc i m hm j

end

/-! ### What a call waits for -/

section
variable {hazard : ℕ → ℕ → Bool} {A : List ℕ}

/-- A call waits for one before it, by its mask or because of a hazard. -/
def Waits (hazard : ℕ → ℕ → Bool) (A : List ℕ) (j k : ℕ) : Prop :=
  j < k ∧ k < A.length ∧ ((A.getD k 0).testBit j = true ∨ hazard j k = true)

theorem testBit_addHazards (k n : ℕ) (st : ℕ × ℕ) (j : ℕ) :
    ((List.range n).foldl (addHazard hazard k) st).1.testBit j = true ↔
      st.1.testBit j = true ∨ j < n ∧ hazard j k = true := by
  induction n generalizing j with
  | zero => simp
  | succ n ih =>
    rw [range_succ, foldl_append, foldl_cons, foldl_nil, addHazard]
    have hlt : j < n + 1 ↔ j < n ∨ j = n := Nat.lt_succ_iff_lt_or_eq
    by_cases hset : ((List.range n).foldl (addHazard hazard k) st).1.testBit n = true
    · rw [if_pos hset, ih, hlt]
      grind
    · rw [if_neg hset]
      by_cases hhaz : hazard n k = true
      · rw [if_pos hhaz, testBit_or_iff, testBit_single, ih, hlt]
        grind
      · rw [if_neg hhaz, ih, hlt]
        grind

/-- What is known after the calls before `n`. -/
structure ClosureSpec (hazard : ℕ → ℕ → Bool) (A : List ℕ) (n : ℕ) (A' : List ℕ) : Prop where
  length : A'.length = A.length
  closed : ∀ k < n, k < A.length → ∀ j,
    (A'.getD k 0).testBit j = true ↔ Relation.TransGen (Waits hazard A) j k
  open' : ∀ k, n ≤ k → A'.getD k 0 = A.getD k 0

theorem getD_set (l : List ℕ) (k v i : ℕ) (hk : k < l.length) :
    (l.set k v).getD i 0 = if i = k then v else l.getD i 0 := by
  rw [getD_eq_getElem?_getD, getD_eq_getElem?_getD, getElem?_set]
  by_cases hik : k = i
  · rw [if_pos hik, if_pos hik.symm, if_pos (hik ▸ hk)]
    rfl
  · rw [if_neg hik, if_neg fun h => hik h.symm]

section
variable (hbelow : ∀ k < A.length, ∀ j, (A.getD k 0).testBit j = true → j < k)
include hbelow

/-- The mask of one call more is closed. -/
theorem ClosureSpec.step {n : ℕ} {st : List ℕ × ℕ} (h : ClosureSpec hazard A n st.1)
    (hn : n < A.length) :
    ClosureSpec hazard A (n + 1) (closeStep hazard st n).1 := by
  have hmask : ∀ j, ((List.range n).foldl (addHazard hazard n) (st.1.getD n 0, st.2)).1.testBit j
      = true ↔ Waits hazard A j n := by
    intro j
    rw [testBit_addHazards, h.open' n (Nat.le_refl n), Waits]
    constructor
    · rintro (hbit | ⟨hlt, hhaz⟩)
      · exact ⟨hbelow n hn j hbit, hn, .inl hbit⟩
      · exact ⟨hlt, hn, .inr hhaz⟩
    · rintro ⟨hlt, -, hbit | hhaz⟩
      · exact .inl hbit
      · exact .inr ⟨hlt, hhaz⟩
  refine ⟨?_, fun k hk hlen j => ?_, fun k hk => ?_⟩
  · rw [← h.length]
    exact length_set
  · show ((st.1.set n _).getD k 0).testBit j = true ↔ _
    rw [getD_set _ _ _ _ (h.length ▸ hn)]
    by_cases hkn : k = n
    · subst hkn
      rw [if_pos rfl, testBit_foldl_or, hmask]
      constructor
      · rintro (hwait | ⟨i, hi, hbit⟩)
        · exact .single hwait
        · have hwait := (hmask i).mp (mem_bits.mp hi)
          exact ((h.closed i hwait.1 (Nat.lt_trans hwait.1 hn) j).mp hbit).tail hwait
      · intro hpath
        -- The last step of the path is to a call that is closed already.
        cases hpath with
        | single hwait => exact .inl hwait
        | @tail i _ hpath hwait =>
          exact .inr ⟨i, mem_bits.mpr ((hmask i).mpr hwait),
            (h.closed i hwait.1 (Nat.lt_trans hwait.1 hn) j).mpr hpath⟩
    · rw [if_neg hkn]
      exact h.closed k (by omega) hlen j
  · show (st.1.set n _).getD k 0 = _
    rw [getD_set _ _ _ _ (h.length ▸ hn), if_neg (by omega)]
    exact h.open' k (by omega)

theorem closureSpec_foldl {n : ℕ} (hn : n ≤ A.length) :
    ClosureSpec hazard A n ((List.range n).foldl (closeStep hazard) (A, 0)).1 := by
  induction n with
  | zero => exact ⟨rfl, fun k hk => absurd hk (Nat.not_lt_zero k), fun k _ => rfl⟩
  | succ n ih =>
    rw [range_succ, foldl_append, foldl_cons, foldl_nil]
    exact (ih (Nat.le_of_succ_le hn)).step hbelow hn

/-- The mask of a call has the calls that it waits for, directly or through others. -/
theorem testBit_closures {k : ℕ} (hk : k < A.length) (j : ℕ) :
    ((closures hazard A).1.getD k 0).testBit j = true ↔
      Relation.TransGen (Waits hazard A) j k :=
  (closureSpec_foldl hbelow (Nat.le_refl _)).closed k hk hk j

theorem length_closures :
    (closures hazard A).1.length = A.length :=
  (closureSpec_foldl hbelow (Nat.le_refl _)).length

end

end

/-! ### The memory of a call -/

/-- An element of a base buffer. -/
abbrev MemoryCell : Type := ℕ × ℤ

/-- The element is in the part. -/
def Range.Contains (r : Range) (c : MemoryCell) : Prop := c.1 = r.base ∧ r.lo ≤ c.2 ∧ c.2 < r.hi

/-- The element is in one of the buffers. -/
def Touches (bufs : List Buffer) (ids : List ℕ) (c : MemoryCell) : Prop :=
  ∃ b ∈ ids, ∃ r, rangeOf bufs b = .ok r ∧ r.Contains c

section
variable {bufs : List Buffer} {ids : List ℕ} {rs rs' : List Range}

/-- A part has at least one element. -/
theorem lo_lt_hi_of_rangeOf {b : ℕ} {r : Range} (h : rangeOf bufs b = .ok r) : r.lo < r.hi := by
  rw [rangeOf] at h
  split at h
  next buf hbuf =>
    split at h
    all_goals
      cases h
      exact Int.lt_add_of_pos_right _ (lt_of_lt_of_le Int.one_pos (le_max_right buf.numel 1))
  next => cases h

theorem touches_iff (h : ranges bufs ids = .ok rs) (c : MemoryCell) :
    Touches bufs ids c ↔ ∃ r ∈ rs, r.Contains c := by
  constructor
  · rintro ⟨b, hb, r, hr, hc⟩
    obtain ⟨r', hr', heq⟩ := exists_of_mapM_eq_ok h hb
    obtain rfl := Except.ok.inj (hr.symm.trans heq)
    exact ⟨r, hr', hc⟩
  · rintro ⟨r, hr, hc⟩
    obtain ⟨b, hb, heq⟩ := exists_of_mem_mapM h hr
    exact ⟨b, hb, r, heq, hc⟩

/-- Parts overlap if they have an element in common. -/
theorem overlap_iff (h : ∀ r ∈ rs, r.lo < r.hi) (h' : ∀ r ∈ rs', r.lo < r.hi) :
    overlap rs rs' = true ↔
      ∃ c : MemoryCell, (∃ r ∈ rs, r.Contains c) ∧ ∃ r ∈ rs', r.Contains c := by
  rw [overlap, any_eq_true]
  simp only [any_eq_true, decide_eq_true_iff]
  constructor
  · rintro ⟨x, hx, y, hy, hbase, hxy, hyx⟩
    have hxlt := h x hx
    have hylt := h' y hy
    refine ⟨(x.base, max x.lo y.lo), ⟨x, hx, rfl, le_max_left _ _, ?_⟩,
      y, hy, hbase, le_max_right _ _, ?_⟩
    · exact max_lt hxlt hyx
    · exact max_lt hxy hylt
  · rintro ⟨c, ⟨x, hx, hbase, hxlo, hxhi⟩, y, hy, hbase', hylo, hyhi⟩
    exact ⟨x, hx, y, hy, hbase.symm.trans hbase', by omega, by omega⟩

theorem ranges_nonempty (h : ranges bufs ids = .ok rs) : ∀ r ∈ rs, r.lo < r.hi := by
  intro r hr
  obtain ⟨b, -, heq⟩ := exists_of_mem_mapM h hr
  exact lo_lt_hi_of_rangeOf heq

end

/-- What a call reads. -/
def Call.Reads (bufs : List Buffer) (c : Call) : MemoryCell → Prop := Touches bufs c.inputs

/-- What a call writes. -/
def Call.Writes (bufs : List Buffer) (c : Call) : MemoryCell → Prop :=
  Touches bufs (c.outputs ++ c.scratch)

/-- Why a call has to wait for one before it: one of them has side effects, the op of one depends on
that of the other, or one writes what the other reads or writes. -/
def MustWait (serialKinds : List String) (ops : List KernelOp) (bufs : List Buffer)
    (c c' : Call) : Prop :=
  (c.op ∈ serialKinds ∨ c'.op ∈ serialKinds) ∨
    Relation.TransGen (ReadsFrom ops) c.full c'.full ∨
      (∃ x, c.Writes bufs x ∧ (c'.Reads bufs x ∨ c'.Writes bufs x)) ∨
        ∃ x, c.Reads bufs x ∧ c'.Writes bufs x

/-- A call of the partition has to wait for one before it. -/
def Required (serialKinds : List String) (ops : List KernelOp) (calls : List Call)
    (bufs : List Buffer) (j k : ℕ) : Prop :=
  j < k ∧ ∃ c c', calls[j]? = some c ∧ calls[k]? = some c' ∧ MustWait serialKinds ops bufs c c'

section
variable {serialKinds : List String} {ops : List KernelOp} {calls : List Call} {bufs : List Buffer}
  {f : Footprints} {A : List ℕ} {k j : ℕ} {c c' : Call}

/-- The hazards between two calls. -/
theorem hazard_iff (h : footprints serialKinds calls bufs = .ok f) (hj : calls[j]? = some c)
    (hk : calls[k]? = some c') :
    f.hazard j k = true ↔ (c.op ∈ serialKinds ∨ c'.op ∈ serialKinds) ∨
      (∃ x, c.Writes bufs x ∧ (c'.Reads bufs x ∨ c'.Writes bufs x)) ∨
        ∃ x, c.Reads bufs x ∧ c'.Writes bufs x := by
  obtain ⟨rd, hrd, h⟩ := bind_eq_ok_iff.mp h
  obtain ⟨wr, hwr, h⟩ := bind_eq_ok_iff.mp h
  cases h
  obtain ⟨rdj, hrdj, hrj⟩ := getElem?_of_mapM hrd hj
  obtain ⟨rdk, hrdk, hrk⟩ := getElem?_of_mapM hrd hk
  obtain ⟨wrj, hwrj, hwj⟩ := getElem?_of_mapM hwr hj
  obtain ⟨wrk, hwrk, hwk⟩ := getElem?_of_mapM hwr hk
  have hserial : ∀ {i : ℕ} {c : Call}, calls[i]? = some c →
      ((calls.map fun c => decide (c.op ∈ serialKinds))[i]?.getD false = true ↔
        c.op ∈ serialKinds) := by
    intro i c hi
    rw [getElem?_map, hi]
    exact decide_eq_true_iff
  rw [Footprints.hazard]
  simp only [Bool.or_eq_true, hserial hj, hserial hk, getD_eq_getElem?_getD, hrdj, hrdk, hwrj,
    hwrk, Option.getD_some]
  have hnonempty : ∀ r ∈ rdk ++ wrk, r.lo < r.hi := by
    intro r hr
    rcases mem_append.mp hr with hr | hr
    · exact ranges_nonempty hrk r hr
    · exact ranges_nonempty hwk r hr
  rw [overlap_iff (ranges_nonempty hwj) hnonempty,
    overlap_iff (ranges_nonempty hrj) (ranges_nonempty hwk), or_assoc]
  simp only [Call.Writes, Call.Reads, touches_iff hrj, touches_iff hrk, touches_iff hwj,
    touches_iff hwk, mem_append, or_and_right, exists_or]

/-- The mask of a call has the calls of the ops in the mask of its op. -/
theorem testBit_initialMasks_iff (hpart : (calls.map Call.full).Pairwise (· < ·))
    (h : initialMasks ops calls = .ok A) (hk : calls[k]? = some c') :
    ∃ a, (ancestors ops)[c'.full]? = some a ∧ ∀ j, (A.getD k 0).testBit j = true ↔
      ∃ c, calls[j]? = some c ∧ a.testBit c.full = true := by
  obtain ⟨m, hm, hmask⟩ := getElem?_of_mapM h hk
  have hnodup : ((calls.map Call.full).zipIdx.map Prod.fst).Nodup := by
    rw [zipIdx_map_fst]
    exact hpart.imp Nat.ne_of_lt
  have hpos : ∀ i j, (PyDict.ofList (calls.map Call.full).zipIdx).get? i = some j ↔
      ∃ c, calls[j]? = some c ∧ c.full = i := by
    intro i j
    rw [PyDict.get?_ofList_iff hnodup, mem_zipIdx_iff_getElem?, getElem?_map,
      Option.map_eq_some_iff]
  rw [partitionAncestors] at hmask
  split at hmask
  next a ha =>
    cases hmask
    refine ⟨a, ha, fun j => ?_⟩
    rw [getD_eq_getElem?_getD, hm, Option.getD_some, testBit_foldl_or]
    simp only [mem_bits]
    constructor
    · rintro (hzero | ⟨i, hanc, hbit⟩)
      · simp at hzero
      · split at hbit
        next k' hk' =>
          rw [testBit_single] at hbit
          obtain ⟨c, hc, rfl⟩ := (hpos i j).mp (hbit ▸ hk')
          exact ⟨c, hc, hanc⟩
        next => simp at hbit
    · rintro ⟨c, hc, hanc⟩
      refine .inr ⟨c.full, hanc, ?_⟩
      rw [(hpos c.full j).mpr ⟨c, hc, rfl⟩]
      exact testBit_single.mpr rfl
  next => cases hmask

/-- The mask of a call has the calls that its op depends on. -/
theorem testBit_initialMasks (hops : InOrder ops) (hpart : (calls.map Call.full).Pairwise (· < ·))
    (h : initialMasks ops calls = .ok A) (hk : calls[k]? = some c') (j : ℕ) :
    (A.getD k 0).testBit j = true ↔
      ∃ c, calls[j]? = some c ∧ Relation.TransGen (ReadsFrom ops) c.full c'.full := by
  obtain ⟨a, ha, hmask⟩ := testBit_initialMasks_iff hpart h hk
  rw [hmask j]
  simp only [testBit_ancestors hops ha]

section
variable (hpart : (calls.map Call.full).Pairwise (· < ·))
include hpart

/-- In graph order, the op of a call comes behind those of the calls before it. -/
theorem lt_of_full_lt (hj : calls[j]? = some c) (hk : calls[k]? = some c') (hlt : c.full < c'.full) :
    j < k := by
  have hget : ∀ {i : ℕ} {c : Call}, calls[i]? = some c →
      (calls.map Call.full)[i]? = some c.full := fun hi => by rw [getElem?_map, hi]; rfl
  rcases Nat.lt_trichotomy j k with hjk | rfl | hkj
  · exact hjk
  · obtain rfl := Option.some.inj (hj.symm.trans hk)
    exact absurd hlt (Nat.lt_irrefl _)
  · obtain ⟨hk', hfull⟩ := List.getElem?_eq_some_iff.mp (hget hk)
    obtain ⟨hj', hfull'⟩ := List.getElem?_eq_some_iff.mp (hget hj)
    have := pairwise_iff_getElem.mp hpart k j hk' hj' hkj
    omega

/-- The calls in the mask of a call come before it. -/
theorem initialMasks_below (h : initialMasks ops calls = .ok A) :
    ∀ k < A.length, ∀ j, (A.getD k 0).testBit j = true → j < k := by
  intro k hk j hbit
  have hlen := length_of_mapM h
  have hcall := getElem?_eq_getElem (show k < calls.length by omega)
  obtain ⟨a, ha, hmask⟩ := testBit_initialMasks_iff hpart h hcall
  obtain ⟨c, hc, hanc⟩ := (hmask j).mp hbit
  exact lt_of_full_lt hpart hc hcall (ancestors_below ha hanc)

end

/-- What the loops of `schedule` take as reasons to wait. -/
theorem waits_iff (hops : InOrder ops) (hpart : (calls.map Call.full).Pairwise (· < ·))
    (hA : initialMasks ops calls = .ok A) (hf : footprints serialKinds calls bufs = .ok f) :
    Waits f.hazard A j k ↔ Required serialKinds ops calls bufs j k := by
  have hlen := length_of_mapM hA
  constructor
  · rintro ⟨hjk, hk, hwhy⟩
    have hck := getElem?_eq_getElem (show k < calls.length by omega)
    have hcj := getElem?_eq_getElem (show j < calls.length by omega)
    refine ⟨hjk, _, _, hcj, hck, ?_⟩
    rcases hwhy with hbit | hhaz
    · obtain ⟨c, hc, hpath⟩ := (testBit_initialMasks hops hpart hA hck j).mp hbit
      obtain rfl := Option.some.inj (hc.symm.trans hcj)
      exact .inr (.inl hpath)
    · rcases (hazard_iff hf hcj hck).mp hhaz with hserial | hmem
      · exact .inl hserial
      · exact .inr (.inr hmem)
  · rintro ⟨hjk, c, c', hj, hk, hwhy⟩
    have hk' := (List.getElem?_eq_some_iff.mp hk).1
    refine ⟨hjk, by omega, ?_⟩
    rcases hwhy with hserial | hpath | hmem
    · exact .inr ((hazard_iff hf hj hk).mpr (.inl hserial))
    · exact .inl ((testBit_initialMasks hops hpart hA hk j).mpr ⟨c, hj, hpath⟩)
    · exact .inr ((hazard_iff hf hj hk).mpr (.inr hmem))

end

end ModelBlaster.Concurrency

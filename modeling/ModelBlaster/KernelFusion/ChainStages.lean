import ModelBlaster.KernelFusion.Chain
import ModelBlaster.Library.StraightLine

/-!
# Stages of chains

When the stages of two chains make up one. The tensor between them must be read once among the
stages of the second; that the second op lists it once is not enough, as a fused op lists the inputs
of its stages without repetition.

## Main definitions

* `callInstr`, `leafInstr`: a call, and an op, as an instruction on the buffers of the tensors;
* `program`: the calls of a list of ops;
* `WellFormed`: what the fusion relies on.

## Main results

* `reads_leafInstr`: an op reads its inputs, and writes its outputs;
* `scheduled_map_leafInstr`: the calls of leaves that are in order are scheduled;
* `isChain_append_iff`: when two chains make up one;
* `exists_of_fusePair`: what `fusePair` accepts, and what it returns;
* `Fused.run_eq`: the graph that is returned computes what the graph computes;
* `Fused.wellFormed`: it is well-formed.
-/

/-! ## Running a graph of kernels -/

namespace ModelBlaster.KernelFusion

open StraightLine

/-! ### Calls -/

/-- What a call passes for a parameter. -/
inductive Place where
  | tensor (t : String)
  | weight (key : FieldValue)
  | null
  | scalar (v : FieldValue)
deriving DecidableEq, Repr

/-- The tensor of a buffer. -/
def Place.tensor? : Place → Option String
  | .tensor t => some t
  | _ => none

def ArgValue.place : ArgValue → Place
  | .input t | .output t | .scratch t => .tensor t
  | .weight key => .weight key
  | .null => .null
  | .scalar v => .scalar v

/-- What a kernel finds at a parameter. -/
inductive Operand (V : Type) where
  | buffer (v : V)
  | null
  | scalar (v : FieldValue)
  /-- A pointer that is only written through. -/
  | out

/-- The kernels by their kinds, the weights by their keys, and what the alias ops show of the tensors
that they read. The outputs of a kernel are numbered. -/
structure Kernels (V : Type) where
  call : String → List (Operand V) → ℕ → V
  weight : FieldValue → V
  view : KernelOp → List V → ℕ → V

/-- `ALIAS_OPS`: ops without a kernel. -/
def aliasOps : List String := ["view", "chunk2_c1"]

section
variable {V : Type} (K : Kernels V)

/-- What a kernel finds at a parameter, in the buffers as they are. -/
def operand (σ : String → V) (arg : Param × Place) : Operand V :=
  if arg.1.isOutPtr then .out
  else
    match arg.2 with
    | .tensor t => .buffer (σ t)
    | .weight key => .buffer (K.weight key)
    | .null => .null
    | .scalar v => .scalar v

/-- The tensors that a call reads. -/
def readTensors (args : List (Param × Place)) : List String :=
  args.filterMap fun arg => if arg.1.isOutPtr then none else arg.2.tensor?

/-- The tensors that a call writes. -/
def writtenTensors (args : List (Param × Place)) : List String :=
  args.filterMap fun arg => if arg.1.isOutPtr then arg.2.tensor? else none

theorem operand_congr {σ τ : String → V} {args : List (Param × Place)}
    (h : ∀ t ∈ readTensors args, σ t = τ t) : args.map (operand K σ) = args.map (operand K τ) := by
  apply List.map_congr_left
  rintro ⟨p, x⟩ hmem
  rw [operand, operand]
  by_cases hout : p.isOutPtr = true
  · rw [if_pos hout, if_pos hout]
  · rw [if_neg hout, if_neg hout]
    cases x with
    | tensor t =>
      have ht : t ∈ readTensors args := List.mem_filterMap.mpr ⟨_, hmem, if_neg hout⟩
      exact congrArg Operand.buffer (h t ht)
    | weight key => rfl
    | null => rfl
    | scalar v => rfl

/-- A call of a kernel. -/
def callInstr (kind : String) (args : List (Param × Place)) : Instr String V where
  reads := readTensors args
  writes := writtenTensors args
  effect σ t :=
    if t ∈ writtenTensors args then
      K.call kind (args.map (operand K σ)) ((writtenTensors args).idxOf t)
    else σ t
  frame _ _ h := if_neg h
  footprint σ τ h t ht := by rw [if_pos ht, if_pos ht, operand_congr K h]

/-- The parameter of an argument, and what is passed for it. -/
def Arg.passed (a : Arg) : Param × Place := (a.param, a.value.place)

/-- What an alias op does: its outputs are parts of its inputs. -/
def aliasInstr (op : KernelOp) : Instr String V where
  reads := op.inputs
  writes := op.outputs
  effect σ t :=
    if t ∈ op.outputs then K.view op (op.inputs.map σ) (op.outputs.idxOf t) else σ t
  frame _ _ h := if_neg h
  footprint σ τ h t ht := by rw [if_pos ht, if_pos ht, List.map_congr_left h]

/-- What an op does that is not made of others. -/
def leafInstr (specs : Specs) (op : KernelOp) : Instr String V :=
  if op.op ∈ aliasOps then aliasInstr K op
  else callInstr K op.op (((bindOp specs op).toOption.getD []).map Arg.passed)

/-- The op is an alias op, or its kernel can be called. -/
def KernelOp.Runs (specs : Specs) (op : KernelOp) : Prop :=
  op.op ∈ aliasOps ∨ ∃ args, bindOp specs op = .ok args

end

/-! ### Leaves -/

mutual

/-- The ops that an op is made of, down to those that are not made of others. -/
def leavesOf : KernelOp → List KernelOp
  | ⟨name, op, inputs, outputs, shape, offset, fields, internal, []⟩ =>
    [⟨name, op, inputs, outputs, shape, offset, fields, internal, []⟩]
  | ⟨_, _, _, _, _, _, _, _, s :: ss⟩ => leavesOf s ++ leavesOfAll ss

/-- The leaves of a list of ops. -/
def leavesOfAll : List KernelOp → List KernelOp
  | [] => []
  | o :: os => leavesOf o ++ leavesOfAll os

end

theorem leavesOfAll_eq (ops : List KernelOp) : leavesOfAll ops = ops.flatMap leavesOf := by
  induction ops with
  | nil => rfl
  | cons o os ih => rw [leavesOfAll, ih, List.flatMap_cons]

/-- The op is not made of others. -/
def KernelOp.Plain (o : KernelOp) : Prop := o.subOps = [] ∧ o.internal = []

theorem leavesOf_of_subOps_nil {o : KernelOp} (h : o.subOps = []) : leavesOf o = [o] := by
  obtain ⟨name, op, inputs, outputs, shape, offset, fields, internal, subOps⟩ := o
  obtain rfl : subOps = [] := h
  rw [leavesOf]

theorem leavesOf_of_subOps {o : KernelOp} (h : o.subOps ≠ []) :
    leavesOf o = o.subOps.flatMap leavesOf := by
  obtain ⟨name, op, inputs, outputs, shape, offset, fields, internal, subOps⟩ := o
  cases subOps with
  | nil => exact absurd rfl h
  | cons s ss => rw [leavesOf, leavesOfAll_eq, List.flatMap_cons]

/-- The calls of a list of ops. -/
def program {V : Type} (K : Kernels V) (specs : Specs) (ops : List KernelOp) :
    List (Instr String V) :=
  (ops.flatMap leavesOf).map (leafInstr K specs)

/-! ### Well-formed graphs -/

/-- What an op shows of its leaves. -/
structure KernelOp.Interface (o : KernelOp) : Prop where
  reads : ∀ t, t ∈ o.inputs ↔
    (∃ s ∈ leavesOf o, t ∈ s.inputs) ∧ ∀ s ∈ leavesOf o, t ∉ s.outputs
  writes : ∀ t, t ∈ o.outputs ∨ t ∈ o.internal → ∃ s ∈ leavesOf o, t ∈ s.outputs

/-- The tensor is written inside of an op, and not shown: it is listed as internal, or left out as
the output of a view of another op's tensor is. -/
def KernelOp.Inside (o : KernelOp) (t : String) : Prop :=
  t ∈ o.internal ∨ (∃ s ∈ leavesOf o, t ∈ s.outputs) ∧ t ∉ o.outputs

/-- The stages follow one another: each tensor between them is the only output of its stage, and is
read once, by the next stage. -/
structure IsChain (stages : List KernelOp) (internal : List String) : Prop where
  length : internal.length + 1 = stages.length
  produced : ∀ (i : ℕ) x, internal[i]? = some x →
    ∃ s : KernelOp, stages[i]? = some s ∧ s.outputs = [x]
  read : ∀ (i : ℕ) x, internal[i]? = some x → ∀ (j : ℕ) (s : KernelOp), stages[j]? = some s →
    s.inputs.count x = if j = i + 1 then 1 else 0

/-- The op is a chain of plain ones. -/
structure KernelOp.Chained (o : KernelOp) : Prop where
  stages : ∀ s ∈ o.subOps, s.Plain
  chain : IsChain o.subOps o.internal
  outputs : ∀ s : KernelOp, o.subOps.getLast? = some s → o.outputs = s.outputs

/-- The stages of an op do not depend on one another. -/
structure KernelOp.Siblings (o : KernelOp) : Prop where
  many : 2 ≤ o.subOps.length
  stages : ∀ s ∈ o.subOps, s.Plain
  internal : o.internal = []
  outputs : o.outputs = o.subOps.flatMap KernelOp.outputs
  written : ∀ s ∈ o.subOps, s.outputs ≠ []

/-- An op that is plain or already fused. -/
def KernelOp.PlainOrFused (o : KernelOp) : Prop := o.Plain ∨ o.Chained ∨ o.Siblings

/-- A graph that is in order, and whose ops have the kernels that they need. -/
structure WellFormed (specs : Specs) (g : KernelGraph) : Prop where
  names : (g.ops.map KernelOp.name).Nodup
  /-- Every tensor has one producer, and its readers come behind. -/
  order : (g.ops.flatMap leavesOf).Pairwise fun s s' =>
    (∀ t ∈ s.inputs, t ∉ s'.outputs) ∧ ∀ t ∈ s.outputs, t ∉ s'.outputs
  self : ∀ s ∈ g.ops.flatMap leavesOf, ∀ t ∈ s.inputs, t ∉ s.outputs
  runs : ∀ s ∈ g.ops.flatMap leavesOf, s.Runs specs
  aliases : ∀ kind ∈ aliasOps, paramsOf specs kind = .error .keyError
  parameters : ∀ kind params, paramsOf specs kind = .ok params → (params.map Param.name).Nodup
  interface : ∀ o ∈ g.ops, o.Interface
  /-- The tensors inside of an op are not read by others, and not returned. -/
  hidden : ∀ o ∈ g.ops, ∀ t, o.Inside t → t ∉ g.outputs ∧
    ∀ o' ∈ g.ops, o'.name ≠ o.name → t ∉ o'.inputs

/-! ### The calls of a well-formed graph -/

section
variable {V : Type} (K : Kernels V) {specs : Specs} {op : KernelOp} {args : List Arg}

/-- What a successful binding passes. -/
theorem bound_of_bindOp (h : bindOp specs op = .ok args) :
    ∃ params, paramsOf specs op.op = .ok params ∧ Bound params op.inputs op.outputs args := by
  obtain ⟨params, hparams, hbind⟩ := Fallible.bind_eq_ok_iff.mp h
  exact ⟨params, hparams, bound_of_bindParams hbind⟩

theorem leafInstr_of_bindOp (hkind : op.op ∉ aliasOps) (h : bindOp specs op = .ok args) :
    leafInstr K specs op = callInstr K op.op (args.map Arg.passed) := by
  rw [leafInstr, if_neg hkind, h]
  rfl

/-- What is passed is read if it is an input, and written if it is an output. -/
theorem readTensors_passed (h : ∀ a ∈ args, a.Fits) :
    readTensors (args.map Arg.passed) = args.filterMap (·.value.input?) ∧
      writtenTensors (args.map Arg.passed) = args.filterMap (·.value.output?) := by
  rw [readTensors, writtenTensors, List.filterMap_map, List.filterMap_map]
  constructor
  all_goals
    apply List.filterMap_congr
    rintro ⟨v, p⟩ ha
    have hfits := h _ ha
    cases v <;> simp_all [Arg.Fits, Arg.passed, ArgValue.place, ArgValue.input?, ArgValue.output?,
      Place.tensor?]

/-- An op reads its inputs, and writes its outputs. -/
theorem reads_leafInstr (h : op.Runs specs) :
    (leafInstr K specs op).reads = op.inputs ∧ (leafInstr K specs op).writes = op.outputs := by
  by_cases hkind : op.op ∈ aliasOps
  · rw [leafInstr, if_pos hkind]
    exact ⟨rfl, rfl⟩
  · obtain ⟨args, hargs⟩ := h.resolve_left hkind
    obtain ⟨params, -, hbound⟩ := bound_of_bindOp hargs
    obtain ⟨hreads, hwrites⟩ := readTensors_passed hbound.fits
    rw [leafInstr_of_bindOp K hkind hargs]
    exact ⟨hreads.trans hbound.inputs, hwrites.trans hbound.outputs⟩

/-- The calls of leaves that are in order are scheduled. -/
theorem scheduled_map_leafInstr {leaves : List KernelOp} (hruns : ∀ s ∈ leaves, s.Runs specs)
    (horder : leaves.Pairwise fun s s' =>
      (∀ t ∈ s.inputs, t ∉ s'.outputs) ∧ ∀ t ∈ s.outputs, t ∉ s'.outputs) :
    StraightLine.Scheduled (leaves.map (leafInstr K specs)) := by
  rw [StraightLine.Scheduled, List.pairwise_map]
  refine horder.imp_of_mem fun {s s'} hs hs' h => ?_
  rw [MayPrecede, (reads_leafInstr K (hruns s hs)).1, (reads_leafInstr K (hruns s hs)).2,
    (reads_leafInstr K (hruns s' hs')).2]
  exact h

end

open List Fallible

theorem isChain_singleton (s : KernelOp) : IsChain [s] [] where
  length := rfl
  produced := fun i x h => by cases h
  read := fun i x h => by cases h

/-- The stages of an op that is plain or fused are a chain, unless they are siblings. -/
theorem isChain_stagesOf {o : KernelOp} (h : o.Plain ∨ o.Chained) :
    IsChain (stagesOf o) o.internal := by
  rcases h with ⟨hsub, hinternal⟩ | h
  · rw [stagesOf, hsub, hinternal]
    exact isChain_singleton o
  · have hlength := h.chain.length
    have hne : o.subOps ≠ [] := fun hnil => by simp [hnil] at hlength
    rw [stagesOf, if_neg (by simpa using hne)]
    exact h.chain

section
variable {sa sb : List KernelOp} {ia ib : List String} {t : String}

/-- Where an element of a chain of two lists is. -/
theorem getElem?_append_cases {α : Type} {l l' : List α} {i : ℕ} {x : α}
    (h : (l ++ l')[i]? = some x) :
    (i < l.length ∧ l[i]? = some x) ∨ ∃ j, i = l.length + j ∧ l'[j]? = some x := by
  by_cases hlt : i < l.length
  · rw [getElem?_append_left hlt] at h
    exact .inl ⟨hlt, h⟩
  · rw [getElem?_append_right (by omega)] at h
    exact .inr ⟨i - l.length, by omega, h⟩

theorem eq_of_getElem?_singleton {α : Type} {x y : α} {k : ℕ} (h : [x][k]? = some y) :
    k = 0 ∧ x = y := by
  cases k with
  | zero => exact ⟨rfl, Option.some.inj h⟩
  | succ k => cases h

/-- Two chains with a tensor between them are one iff the second reads it once, at its start. -/
theorem isChain_append_iff (ha : IsChain sa ia) (hb : IsChain sb ib)
    (hlast : ∃ s, sa[ia.length]? = some s ∧ s.outputs = [t]) (hta : ∀ s ∈ sa, t ∉ s.inputs)
    (hia : ∀ s ∈ sb, ∀ x ∈ ia, x ∉ s.inputs) (hib : ∀ s ∈ sa, ∀ x ∈ ib, x ∉ s.inputs) :
    IsChain (sa ++ sb) (ia ++ [t] ++ ib) ↔
      ∀ (j : ℕ) (s : KernelOp), sb[j]? = some s → s.inputs.count t = if j = 0 then 1 else 0 := by
  have hlen := ha.length
  constructor
  · intro h j s hs
    have ht : (ia ++ [t] ++ ib)[ia.length]? = some t := by simp
    have hcount := h.read ia.length t ht (sa.length + j) s (by
      rw [getElem?_append_right (by omega)]
      simpa using hs)
    have hiff : sa.length + j = ia.length + 1 ↔ j = 0 := by omega
    simpa only [hiff] using hcount
  · intro h
    refine ⟨?_, fun i x hx => ?_, fun i x hx j s hs => ?_⟩
    · have hlenb := hb.length
      simp only [length_append, length_singleton]
      omega
    · rcases getElem?_append_cases hx with ⟨-, hfront⟩ | ⟨k, rfl, hback⟩
      · rcases getElem?_append_cases hfront with ⟨hi, hfirst⟩ | ⟨k, rfl, hmid⟩
        · obtain ⟨s, hs, hout⟩ := ha.produced i x hfirst
          exact ⟨s, by rw [getElem?_append_left (by omega), hs], hout⟩
        · obtain ⟨rfl, rfl⟩ := eq_of_getElem?_singleton hmid
          obtain ⟨s, hs, hout⟩ := hlast
          exact ⟨s, by rw [Nat.add_zero, getElem?_append_left (by omega), hs], hout⟩
      · obtain ⟨s, hs, hout⟩ := hb.produced k x hback
        refine ⟨s, ?_, hout⟩
        rw [length_append, length_singleton, hlen, getElem?_append_right (by omega),
          Nat.add_sub_cancel_left, hs]
    · rcases getElem?_append_cases hs with ⟨hj, hleft⟩ | ⟨m, rfl, hright⟩
      · -- A stage of the first chain reads the tensors of its own chain only.
        have hmem := mem_of_getElem? hleft
        rcases getElem?_append_cases hx with ⟨-, hfront⟩ | ⟨k, rfl, hback⟩
        · rcases getElem?_append_cases hfront with ⟨hi, hfirst⟩ | ⟨k, rfl, hmid⟩
          · exact ha.read i x hfirst j s hleft
          · obtain ⟨rfl, rfl⟩ := eq_of_getElem?_singleton hmid
            rw [count_eq_zero_of_not_mem (hta s hmem), if_neg (by omega)]
        · rw [count_eq_zero_of_not_mem (hib s hmem x (mem_of_getElem? hback)), if_neg]
          rw [length_append, length_singleton]
          omega
      · have hmem := mem_of_getElem? hright
        rcases getElem?_append_cases hx with ⟨-, hfront⟩ | ⟨k, rfl, hback⟩
        · rcases getElem?_append_cases hfront with ⟨hi, hfirst⟩ | ⟨k, rfl, hmid⟩
          · rw [count_eq_zero_of_not_mem (hia s hmem x (mem_of_getElem? hfirst)), if_neg (by omega)]
          · obtain ⟨rfl, rfl⟩ := eq_of_getElem?_singleton hmid
            have hiff : sa.length + m = ia.length + 0 + 1 ↔ m = 0 := by omega
            simp only [hiff]
            exact h m s hright
        · have hcount := hb.read k x hback m s hright
          have hiff : sa.length + m = (ia ++ [t]).length + k + 1 ↔ m = k + 1 := by
            rw [length_append, length_singleton]
            omega
          simp only [hiff]
          exact hcount

end

/-- The first stage alone reads a tensor, and once, iff all stages together read it once. -/
theorem count_stages_iff {stages : List KernelOp} {t : String}
    (hfirst : ∀ s ∈ stages.head?, t ∈ s.inputs) (hne : stages ≠ []) :
    (∀ (j : ℕ) (s : KernelOp), stages[j]? = some s → s.inputs.count t = if j = 0 then 1 else 0) ↔
      (stages.flatMap KernelOp.inputs).count t = 1 := by
  cases stages with
  | nil => exact absurd rfl hne
  | cons s rest =>
    have hpos : 0 < s.inputs.count t := count_pos_iff.mpr (hfirst s rfl)
    rw [flatMap_cons, count_append]
    constructor
    · intro h
      have hs : s.inputs.count t = 1 := h 0 s rfl
      have hrest : (rest.flatMap KernelOp.inputs).count t = 0 := by
        apply count_eq_zero_of_not_mem
        intro hmem
        obtain ⟨s', hs', ht⟩ := mem_flatMap.mp hmem
        obtain ⟨j, hj⟩ := mem_iff_getElem?.mp hs'
        have hzero : s'.inputs.count t = 0 := h (j + 1) s' hj
        exact count_eq_zero.mp hzero ht
      omega
    · intro h j s' hs'
      cases j with
      | zero =>
        obtain rfl : s = s' := Option.some.inj hs'
        show s.inputs.count t = 1
        omega
      | succ j =>
        have hmem : s' ∈ rest := mem_of_getElem? hs'
        have hzero : (rest.flatMap KernelOp.inputs).count t = 0 := by omega
        apply count_eq_zero_of_not_mem
        intro ht
        exact count_eq_zero.mp hzero (mem_flatMap.mpr ⟨s', hmem, ht⟩)

/-! ### What is accepted -/

section
variable {specs : Specs} {g : KernelGraph}

/-- The second of two elements is replaced, and the first is erased. -/
theorem set_eraseIdx_append {α : Type} (before mid after : List α) (x y z : α) :
    ((before ++ x :: (mid ++ y :: after)).set (before.length + (mid.length + 1)) z).eraseIdx
      before.length = before ++ mid ++ z :: after := by
  rw [set_append_right _ _ (by omega), Nat.add_sub_cancel_left, set_cons_succ,
    set_append_right _ _ (Nat.le_refl _), Nat.sub_self, set_cons_zero,
    eraseIdx_append_of_length_le (Nat.le_refl _), Nat.sub_self, eraseIdx_cons_zero,
    append_assoc]

/-- The name of the op that is found. -/
theorem name_of_indexOf {name : String} {i : ℕ} (h : indexOf g name = .ok i) :
    ∃ o, g.ops[i]? = some o ∧ o.name = name := by
  rw [indexOf] at h
  split at h
  next j hj =>
    cases h
    obtain ⟨hlt, hname, -⟩ := findIdx?_eq_some_iff_getElem.mp hj
    exact ⟨_, getElem?_eq_getElem hlt, by simpa using hname⟩
  · cases h

/-- An op that reads the output of another comes behind it. -/
theorem lt_of_reads (hwf : WellFormed specs g) {i j : ℕ} {A B : KernelOp} {t : String}
    (hA : g.ops[i]? = some A) (hB : g.ops[j]? = some B) (hout : t ∈ A.outputs) (hin : t ∈ B.inputs) :
    i < j := by
  obtain ⟨s, hs, hwrites⟩ := (hwf.interface A (mem_of_getElem? hA)).writes t (.inl hout)
  obtain ⟨⟨s', hs', hreads⟩, hown⟩ :=
    ((hwf.interface B (mem_of_getElem? hB)).reads t).mp hin
  rcases Nat.lt_trichotomy i j with hlt | rfl | hlt
  · exact hlt
  · obtain rfl : A = B := Option.some.inj (hA.symm.trans hB)
    exact absurd hwrites (hown s hs)
  · -- The reader would come first.
    obtain ⟨before, after, hops, hlen⟩ := PyList.exists_append_of_getElem? hA
    have hmem : B ∈ before := by
      rw [hops, getElem?_append_left (by omega)] at hB
      exact mem_of_getElem? hB
    have horder := hwf.order
    rw [hops, flatMap_append, flatMap_cons] at horder
    have hcross := (pairwise_append.mp horder).2.2 s' (mem_flatMap.mpr ⟨B, hmem, hs'⟩) s
      (mem_append_left _ hs)
    exact absurd hwrites (hcross.1 t hreads)

/-- What is fused, and the graph that is returned. -/
structure Fused (specs : Specs) (g : KernelGraph) (a b : String) (g' : KernelGraph)
    (spec : KernelSpec) (before mid after : List KernelOp) (A B f : KernelOp) (t : String) :
    Prop where
  ops : g.ops = before ++ A :: (mid ++ B :: after)
  name_left : A.name = a
  name_right : B.name = b
  accepted : PairAccepted g A B t
  fused : fuseOps specs A B t = .ok (f, spec)
  result : g' = ⟨before ++ mid ++ f :: after, g.outputs⟩

theorem exists_of_fusePair (hwf : WellFormed specs g) {a b : String} {g' : KernelGraph}
    {spec : KernelSpec} (h : fusePair specs g a b = .ok (g', spec)) :
    ∃ before mid after A B f t, Fused specs g a b g' spec before mid after A B f t := by
  obtain ⟨i, hi, h⟩ := bind_eq_ok_iff.mp h
  obtain ⟨j, hj, h⟩ := bind_eq_ok_iff.mp h
  obtain ⟨A, hA, hnameA⟩ := name_of_indexOf hi
  obtain ⟨B, hB, hnameB⟩ := name_of_indexOf hj
  rw [hA, hB] at h
  dsimp only at h
  split at h
  next t hout =>
    split_ifs at h with hacc
    obtain ⟨⟨f, spec'⟩, hfuse, heq⟩ := bind_eq_ok_iff.mp h
    cases heq
    have hin : t ∈ B.inputs := by
      have hshared : t ∈ A.outputs.filter (· ∈ B.inputs) := by simp [hacc.shared]
      simpa using (mem_filter.mp hshared).2
    have hlt := lt_of_reads hwf hA hB (by simp [hout]) hin
    obtain ⟨before, rest, hops, rfl⟩ := PyList.exists_append_of_getElem? hA
    have hrest : rest[j - before.length - 1]? = some B := by
      rw [hops, getElem?_append_right (by omega)] at hB
      obtain ⟨k, hk⟩ : ∃ k, j - before.length = k + 1 := ⟨j - before.length - 1, by omega⟩
      rw [hk] at hB ⊢
      exact hB
    obtain ⟨mid, after, rfl, hmid⟩ := PyList.exists_append_of_getElem? hrest
    refine ⟨before, mid, after, A, B, f, t, hops, hnameA, hnameB, hacc, hfuse, ?_⟩
    have hj : j = before.length + (mid.length + 1) := by omega
    rw [hops, hj, set_eraseIdx_append]
  · cases h

end

/-! ### The stages of a fused op -/

section
variable {specs : Specs} {g : KernelGraph} {A B f : KernelOp} {spec : KernelSpec} {t : String}

/-- What the fused op is made of. -/
theorem eq_of_fuseOps (h : fuseOps specs A B t = .ok (f, spec)) : ∃ tps,
    (List.range ((stagesOf A ++ stagesOf B).length - 1)).mapM
        (tParamAt specs (stagesOf A ++ stagesOf B) (A.internal ++ [t] ++ B.internal)) = .ok tps ∧
      makeChainSpec specs ((stagesOf A ++ stagesOf B).map KernelOp.op) tps = .ok spec ∧
      f = {
        name := A.name ++ "+" ++ B.name
        op := spec.op
        inputs := PyList.orderedUnique (A.inputs ++ B.inputs.filter (· ≠ t))
        outputs := B.outputs
        internal := A.internal ++ [t] ++ B.internal
        subOps := stagesOf A ++ stagesOf B } := by
  obtain ⟨tps, htps, h⟩ := bind_eq_ok_iff.mp h
  obtain ⟨spec', hspec, h⟩ := bind_eq_ok_iff.mp h
  cases h
  exact ⟨tps, htps, hspec, rfl⟩

theorem stagesOf_ne_nil (o : KernelOp) : stagesOf o ≠ [] := by
  rw [stagesOf]
  split_ifs with h
  · exact cons_ne_nil _ _
  · simpa using h

/-- The leaves of an op that is plain or a chain are its stages. -/
theorem leavesOf_eq_stagesOf {o : KernelOp} (h : o.Plain ∨ o.Chained) :
    leavesOf o = stagesOf o := by
  by_cases hsub : o.subOps = []
  · rw [leavesOf_of_subOps_nil hsub, stagesOf, hsub]
    rfl
  · rw [leavesOf_of_subOps hsub, stagesOf, if_neg (by simpa using hsub)]
    have hchained := h.resolve_left fun hplain => hsub hplain.1
    have hleaf : ∀ s ∈ o.subOps, leavesOf s = [s] := fun s hs =>
      leavesOf_of_subOps_nil (hchained.stages s hs).1
    rw [flatMap_def, map_congr_left hleaf, ← flatMap_def, flatMap_singleton']

/-- The last stage writes the outputs of its op. -/
theorem getLast?_stagesOf {o : KernelOp} (h : o.Plain ∨ o.Chained) :
    ∃ s, (stagesOf o)[o.internal.length]? = some s ∧ (stagesOf o).getLast? = some s ∧
      s.outputs = o.outputs := by
  have hlen := (isChain_stagesOf h).length
  obtain ⟨s, hs⟩ : ∃ s, (stagesOf o).getLast? = some s :=
    ⟨_, getLast?_eq_getLast_of_ne_nil (stagesOf_ne_nil o)⟩
  refine ⟨s, ?_, hs, ?_⟩
  · rw [getLast?_eq_getElem?] at hs
    rwa [show o.internal.length = (stagesOf o).length - 1 by omega]
  · rcases h with ⟨hsub, -⟩ | h
    · rw [stagesOf, hsub] at hs
      exact congrArg KernelOp.outputs (Option.some.inj hs).symm
    · have hne : o.subOps ≠ [] := fun hnil => by
        have := h.chain.length
        simp [hnil] at this
      rw [stagesOf, if_neg (by simpa using hne)] at hs
      exact (h.outputs s hs).symm

/-- Siblings have more than one output, and no tensor inside: they are not fused further. -/
theorem plain_or_chained_of_fuseOps (hout : A.outputs = [t]) (hA : A.PlainOrFused)
    (hB : B.PlainOrFused) (h : fuseOps specs A B t = .ok (f, spec)) :
    (A.Plain ∨ A.Chained) ∧ (B.Plain ∨ B.Chained) := by
  have hA' : A.Plain ∨ A.Chained := by
    rcases hA with hA | hA | hA
    · exact .inl hA
    · exact .inr hA
    · have hmany := hA.many
      have houts := hA.outputs.symm.trans hout
      obtain ⟨s, s', rest, hsub⟩ : ∃ s s' rest, A.subOps = s :: s' :: rest := by
        match hsub : A.subOps, hmany with
        | s :: s' :: rest, _ => exact ⟨s, s', rest, rfl⟩
      have hs := hA.written s (by simp [hsub])
      have hs' := hA.written s' (by simp [hsub])
      have hlen := congrArg List.length houts
      rw [hsub, flatMap_cons, flatMap_cons, length_append, length_append, length_singleton] at hlen
      have := length_pos_iff.mpr hs
      have := length_pos_iff.mpr hs'
      omega
  refine ⟨hA', ?_⟩
  rcases hB with hB | hB | hB
  · exact .inl hB
  · exact .inr hB
  · -- The stages behind the first have no tensor in front of them.
    obtain ⟨tps, htps, -⟩ := eq_of_fuseOps h
    have hne : B.subOps ≠ [] := fun hnil => by
      have := hB.many
      simp [hnil] at this
    have hstages : stagesOf B = B.subOps := if_neg (by simpa using hne)
    have hmany := hB.many
    have hlen := (isChain_stagesOf hA').length
    have hmem : (stagesOf A).length ∈ List.range ((stagesOf A ++ stagesOf B).length - 1) := by
      rw [mem_range, length_append, hstages]
      omega
    obtain ⟨tp, -, htp⟩ := exists_of_mapM_eq_ok htps hmem
    rw [tParamAt, hB.internal, append_nil,
      getElem?_eq_none (show (A.internal ++ [t]).length ≤ (stagesOf A).length by
        rw [length_append, length_singleton]
        omega)] at htp
    split at htp
    · next heq => cases heq
    · cases htp

end

/-! ### One chain -/

section
variable {specs : Specs} {g g' : KernelGraph} {a b : String} {spec : KernelSpec}
  {before mid after : List KernelOp} {A B f : KernelOp} {t : String}

section
variable (h : Fused specs g a b g' spec before mid after A B f t)
include h

/-- The leaves of the graph, with those of the two ops. -/
theorem Fused.leaves_eq :
    g.ops.flatMap leavesOf = before.flatMap leavesOf ++ (leavesOf A ++
      (mid.flatMap leavesOf ++ (leavesOf B ++ after.flatMap leavesOf))) := by
  rw [h.ops, flatMap_append, flatMap_cons, flatMap_append, flatMap_cons]

theorem Fused.mem_left : A ∈ g.ops := by
  rw [h.ops]
  simp

theorem Fused.mem_right : B ∈ g.ops := by
  rw [h.ops]
  simp

end

theorem Fused.name_ne (hwf : WellFormed specs g)
    (h : Fused specs g a b g' spec before mid after A B f t) : B.name ≠ A.name := by
  have hnd := hwf.names
  rw [h.ops, map_append, map_cons] at hnd
  have hnot := (nodup_cons.mp (nodup_append.mp hnd).2.1).1
  intro heq
  apply hnot
  rw [← heq]
  simp

variable {s : KernelOp}

section
variable (hwf : WellFormed specs g)
include hwf

/-- In order, no leaf reads the output of a later one, and no two write one tensor. -/
theorem Fused.order (h : Fused specs g a b g' spec before mid after A B f t) {s' : KernelOp}
    (hs : s ∈ leavesOf A) (hs' : s' ∈ leavesOf B) :
    (∀ x ∈ s.inputs, x ∉ s'.outputs) ∧ ∀ x ∈ s.outputs, x ∉ s'.outputs := by
  have horder := hwf.order
  rw [h.leaves_eq] at horder
  have hrest := (pairwise_append.mp horder).2.1
  refine (pairwise_append.mp hrest).2.2 s hs s' ?_
  exact mem_append_right _ (mem_append_left _ hs')

/-- No stage of the first op reads what its last stage writes. -/
theorem Fused.notMem_inputs_left (hA : A.Plain ∨ A.Chained)
    (h : Fused specs g a b g' spec before mid after A B f t) (hs : s ∈ stagesOf A) :
    t ∉ s.inputs := by
  obtain ⟨last, -, hlast, hout⟩ := getLast?_stagesOf hA
  rw [h.accepted.outputs] at hout
  rw [← leavesOf_eq_stagesOf hA] at hlast hs
  obtain ⟨init, hinit⟩ := getLast?_eq_some_iff.mp hlast
  have horder := hwf.order
  rw [h.leaves_eq] at horder
  have hleaves := (pairwise_append.mp (pairwise_append.mp horder).2.1).1
  intro ht
  rw [hinit] at hleaves hs
  rcases mem_append.mp hs with hs | hs
  · exact ((pairwise_append.mp hleaves).2.2 s hs last (mem_singleton_self _)).1 t ht
      (by simp [hout])
  · obtain rfl := mem_singleton.mp hs
    have hmem : s ∈ g.ops.flatMap leavesOf :=
      mem_flatMap.mpr ⟨A, h.mem_left, hinit ▸ mem_append_right _ hs⟩
    exact hwf.self s hmem t ht (by simp [hout])

/-- No stage of the second op reads a tensor inside of the first. -/
theorem Fused.notMem_inputs_right (hA : A.Plain ∨ A.Chained) (hB : B.Plain ∨ B.Chained)
    (h : Fused specs g a b g' spec before mid after A B f t) (hs : s ∈ stagesOf B) {x : String}
    (hx : x ∈ A.internal) : x ∉ s.inputs := by
  intro hread
  rw [← leavesOf_eq_stagesOf hB] at hs
  have hhidden := ((hwf.hidden A h.mem_left x (.inl hx)).2 B h.mem_right (h.name_ne hwf))
  rw [(hwf.interface B h.mem_right).reads x] at hhidden
  apply hhidden
  refine ⟨⟨s, hs, hread⟩, fun s' hs' hwrites => ?_⟩
  obtain ⟨i, hi⟩ := mem_iff_getElem?.mp hx
  obtain ⟨s₀, hs₀, hout⟩ := (isChain_stagesOf hA).produced i x hi
  have hs₀' : s₀ ∈ leavesOf A := leavesOf_eq_stagesOf hA ▸ mem_of_getElem? hs₀
  exact (h.order hwf hs₀' hs').2 x (by simp [hout]) hwrites

/-- The stages of the fused op are a chain iff the tensor between the two ops is read once. -/
theorem Fused.isChain_iff (hA : A.Plain ∨ A.Chained) (hB : B.Plain ∨ B.Chained)
    (h : Fused specs g a b g' spec before mid after A B f t) :
    IsChain f.subOps f.internal ↔ ((stagesOf B).flatMap KernelOp.inputs).count t = 1 := by
  obtain ⟨tps, -, -, rfl⟩ := eq_of_fuseOps h.fused
  obtain ⟨last, hlast, -, hout⟩ := getLast?_stagesOf hA
  rw [← count_stages_iff h.accepted.first (stagesOf_ne_nil B)]
  apply isChain_append_iff (isChain_stagesOf hA) (isChain_stagesOf hB)
    ⟨last, hlast, hout.trans h.accepted.outputs⟩
  · exact fun s hs => h.notMem_inputs_left hwf hA hs
  · exact fun s hs x hx => h.notMem_inputs_right hwf hA hB hs hx
  · intro s hs x hx hread
    obtain ⟨i, hi⟩ := mem_iff_getElem?.mp hx
    obtain ⟨s', hs', hout'⟩ := (isChain_stagesOf hB).produced i x hi
    have hleaf : s' ∈ leavesOf B := leavesOf_eq_stagesOf hB ▸ mem_of_getElem? hs'
    exact (h.order hwf (leavesOf_eq_stagesOf hA ▸ hs) hleaf).1 x hread (by simp [hout'])

end

end

/-! ## Order after a fusion -/

section
variable {specs : Specs} {g g' : KernelGraph} {a b : String} {spec : KernelSpec}
  {before mid after : List KernelOp} {A B f : KernelOp} {t : String}

/-! ### Order -/

/-- Two adjacent parts of an ordered list may change places if the second may precede the first. -/
theorem pairwise_swap {α : Type} {R : α → α → Prop} {l₁ l₂ l₃ l₄ : List α}
    (h : (l₁ ++ (l₂ ++ (l₃ ++ l₄))).Pairwise R) (hswap : ∀ y ∈ l₃, ∀ x ∈ l₂, R y x) :
    (l₁ ++ (l₃ ++ (l₂ ++ l₄))).Pairwise R := by
  simp only [pairwise_append, mem_append] at h ⊢
  obtain ⟨h₁, ⟨h₂, ⟨h₃, h₄, h₃₄⟩, h₂r⟩, h₁r⟩ := h
  refine ⟨h₁, ⟨h₃, ⟨h₂, h₄, fun x hx y hy => h₂r x hx y (.inr hy)⟩, fun y hy x hx => ?_⟩,
    fun x hx y hy => ?_⟩
  · rcases hx with hx | hx
    · exact hswap y hy x hx
    · exact h₃₄ y hy x hx
  · rcases hy with hy | hy | hy
    · exact h₁r x hx y (.inr (.inl hy))
    · exact h₁r x hx y (.inl hy)
    · exact h₁r x hx y (.inr (.inr hy))

variable {o s : KernelOp} {x : String}

theorem Fused.mem_ops_iff (h : Fused specs g a b g' spec before mid after A B f t) :
    o ∈ g.ops ↔ o = A ∨ o = B ∨ o ∈ before ++ mid ++ after := by
  rw [h.ops]
  grind

section
variable (hwf : WellFormed specs g) (h : Fused specs g a b g' spec before mid after A B f t)
  (ho : o ∈ before ++ mid ++ after)
include hwf h ho

/-- The other ops have other names. -/
theorem Fused.name_ne_of_mem :
    o.name ≠ A.name ∧ o.name ≠ B.name := by
  have hnd := hwf.names
  have hperm : g.ops.Perm (A :: B :: (before ++ mid ++ after)) := by
    rw [h.ops, append_assoc]
    refine perm_middle.trans (List.Perm.cons A ?_)
    rw [← append_assoc, ← append_assoc]
    exact perm_middle
  have hnd' := (hperm.map KernelOp.name).nodup_iff.mp hnd
  rw [map_cons, map_cons, nodup_cons, nodup_cons] at hnd'
  have hmem := mem_map_of_mem (f := KernelOp.name) ho
  constructor
  · intro heq
    exact hnd'.1 (mem_cons_of_mem _ (heq ▸ hmem))
  · intro heq
    exact hnd'.2.1 (heq ▸ hmem)

/-- The tensor between the two ops is read by the second only. -/
theorem Fused.notMem_inputs :
    t ∉ o.inputs := by
  intro hread
  have hmem : o.name ∈ (g.ops.filter (t ∈ ·.inputs)).map KernelOp.name :=
    mem_map_of_mem (mem_filter.mpr ⟨h.mem_ops_iff.mpr (.inr (.inr ho)), by simpa using hread⟩)
  rw [h.accepted.readers, mem_singleton] at hmem
  exact (h.name_ne_of_mem hwf ho).2 hmem

end

/-- What a leaf of an op writes is no input of the op, and what a leaf reads is written inside or
is an input. -/
theorem KernelOp.Interface.mem_inputs (ho : o.Interface) (hs : s ∈ leavesOf o)
    (hread : x ∈ s.inputs) :
    x ∈ o.inputs ∨ ∃ s' ∈ leavesOf o, x ∈ s'.outputs := by
  by_cases hinside : ∃ s' ∈ leavesOf o, x ∈ s'.outputs
  · exact .inr hinside
  · exact .inl ((ho.reads x).mpr ⟨⟨s, hs, hread⟩, fun s' hs' hx => hinside ⟨s', hs', hx⟩⟩)

/-- Two leaves of a well-formed graph that write one tensor are at one place of the list. -/
theorem WellFormed.notMem_outputs (hwf : WellFormed specs g) {l l' : List KernelOp}
    (hsplit : g.ops.flatMap leavesOf = l ++ l') {s s' : KernelOp} (hs : s ∈ l) (hs' : s' ∈ l')
    {x : String} (hx : x ∈ s.outputs) : x ∉ s'.outputs := by
  have horder := hwf.order
  rw [hsplit] at horder
  exact ((pairwise_append.mp horder).2.2 s hs s' hs').2 x hx

/-- What the first op writes is the tensor between the two, or inside. -/
theorem Fused.eq_or_inside (h : Fused specs g a b g' spec before mid after A B f t)
    (hs : s ∈ leavesOf A) (hx : x ∈ s.outputs) : x = t ∨ A.Inside x := by
  by_cases hout : x ∈ A.outputs
  · rw [h.accepted.outputs, mem_singleton] at hout
    exact .inl hout
  · exact .inr (.inr ⟨⟨s, hs, hx⟩, hout⟩)

/-- The leaves between the two ops may come in front of the first. -/
theorem Fused.swap (hwf : WellFormed specs g)
    (h : Fused specs g a b g' spec before mid after A B f t) {s' : KernelOp}
    (hs : s ∈ mid.flatMap leavesOf) (hs' : s' ∈ leavesOf A) :
    (∀ x ∈ s.inputs, x ∉ s'.outputs) ∧ ∀ x ∈ s.outputs, x ∉ s'.outputs := by
  obtain ⟨o, ho, hso⟩ := mem_flatMap.mp hs
  have hmem : o ∈ before ++ mid ++ after := by simp [ho]
  have hops : o ∈ g.ops := h.mem_ops_iff.mpr (.inr (.inr hmem))
  have hsplit : g.ops.flatMap leavesOf = (before.flatMap leavesOf ++ leavesOf A) ++
      (mid.flatMap leavesOf ++ (leavesOf B ++ after.flatMap leavesOf)) := by
    rw [h.leaves_eq, append_assoc]
  have hwrites : ∀ s'' ∈ mid.flatMap leavesOf, ∀ x ∈ s''.outputs, x ∉ s'.outputs :=
    fun s'' hs'' x hx hx' => hwf.notMem_outputs hsplit (mem_append_right _ hs')
      (mem_append_left _ hs'') hx' hx
  refine ⟨fun x hread hwrite => ?_, hwrites s hs⟩
  rcases ((hwf.interface o hops).mem_inputs hso hread) with hin | ⟨s'', hs'', hout⟩
  · rcases h.eq_or_inside hs' hwrite with rfl | hinside
    · exact h.notMem_inputs hwf hmem hin
    · exact (hwf.hidden A h.mem_left x hinside).2 o hops (h.name_ne_of_mem hwf hmem).1 hin
  · exact hwrites s'' (mem_flatMap.mpr ⟨o, ho, hs''⟩) x hout hwrite

/-- The stages of an op are not made of others. -/
theorem plain_of_mem_stagesOf (h : o.Plain ∨ o.Chained) (hs : s ∈ stagesOf o) :
    s.Plain := by
  rcases h with h | h
  · rw [stagesOf, h.1] at hs
    obtain rfl := mem_singleton.mp hs
    exact h
  · have hlength := h.chain.length
    have hne : o.subOps ≠ [] := fun hnil => by simp [hnil] at hlength
    rw [stagesOf, if_neg (by simpa using hne)] at hs
    exact h.stages s hs

section
variable (h : Fused specs g a b g' spec before mid after A B f t) (hA : A.Plain ∨ A.Chained)
  (hB : B.Plain ∨ B.Chained)
include h hA hB

/-- The leaves of the fused op are those of the two. -/
theorem Fused.leavesOf_eq :
    leavesOf f = leavesOf A ++ leavesOf B := by
  obtain ⟨tps, -, -, rfl⟩ := eq_of_fuseOps h.fused
  have hleaf : ∀ s ∈ stagesOf A ++ stagesOf B, leavesOf s = [s] := by
    intro s hs
    rcases mem_append.mp hs with hs | hs
    · exact leavesOf_of_subOps_nil (plain_of_mem_stagesOf hA hs).1
    · exact leavesOf_of_subOps_nil (plain_of_mem_stagesOf hB hs).1
  rw [leavesOf_of_subOps (by simp [stagesOf_ne_nil]), flatMap_def,
    map_congr_left hleaf, ← flatMap_def, flatMap_singleton',
    leavesOf_eq_stagesOf hA, leavesOf_eq_stagesOf hB]

/-- The leaves of the graph that is returned: those of the first op have moved to the second. -/
theorem Fused.leaves_result :
    g'.ops.flatMap leavesOf = before.flatMap leavesOf ++
      (mid.flatMap leavesOf ++ (leavesOf A ++ (leavesOf B ++ after.flatMap leavesOf))) := by
  rw [h.result]
  simp only [flatMap_append, flatMap_cons, h.leavesOf_eq hA hB, append_assoc]

theorem Fused.leaves_perm :
    (g'.ops.flatMap leavesOf).Perm (g.ops.flatMap leavesOf) := by
  rw [h.leaves_result hA hB, h.leaves_eq]
  refine List.Perm.append_left _ ?_
  rw [← append_assoc, ← append_assoc (leavesOf A)]
  exact perm_append_comm.append_right _

end

/-- Where the leaves of the first op have moved to, they are in order. -/
theorem Fused.order_result (hwf : WellFormed specs g)
    (h : Fused specs g a b g' spec before mid after A B f t) (hA : A.Plain ∨ A.Chained)
    (hB : B.Plain ∨ B.Chained) :
    (g'.ops.flatMap leavesOf).Pairwise fun s s' =>
      (∀ x ∈ s.inputs, x ∉ s'.outputs) ∧ ∀ x ∈ s.outputs, x ∉ s'.outputs := by
  have horder := hwf.order
  rw [h.leaves_eq] at horder
  rw [h.leaves_result hA hB]
  exact pairwise_swap horder fun s hs s' hs' => h.swap hwf hs hs'

/-- The graph that is returned computes what the graph computes. -/
theorem Fused.run_eq {V : Type} (K : Kernels V) (hwf : WellFormed specs g)
    (h : Fused specs g a b g' spec before mid after A B f t) (hA : A.Plain ∨ A.Chained)
    (hB : B.Plain ∨ B.Chained) (σ : String → V) :
    run (program K specs g'.ops) σ = run (program K specs g.ops) σ := by
  have hperm := h.leaves_perm hA hB
  have hruns : ∀ s ∈ g'.ops.flatMap leavesOf, s.Runs specs :=
    fun s hs => hwf.runs s (hperm.mem_iff.mp hs)
  exact run_eq_of_perm (hperm.map _) (scheduled_map_leafInstr K hruns (h.order_result hwf hA hB))
    (scheduled_map_leafInstr K hwf.runs hwf.order) σ

/-! ### What is left behind -/

section
variable (h : Fused specs g a b g' spec before mid after A B f t)
include h

theorem Fused.mem_inputs_iff :
    x ∈ f.inputs ↔ x ∈ A.inputs ∨ x ∈ B.inputs ∧ x ≠ t := by
  obtain ⟨tps, -, -, rfl⟩ := eq_of_fuseOps h.fused
  show x ∈ PyList.orderedUnique (A.inputs ++ B.inputs.filter (· ≠ t)) ↔ _
  rw [PyList.mem_orderedUnique, mem_append, mem_filter, decide_eq_true_iff]

theorem Fused.mem_internal_iff :
    x ∈ f.internal ↔ x ∈ A.internal ∨ x = t ∨ x ∈ B.internal := by
  obtain ⟨tps, -, -, rfl⟩ := eq_of_fuseOps h.fused
  show x ∈ A.internal ++ [t] ++ B.internal ↔ _
  rw [mem_append, mem_append, mem_singleton, or_assoc]

theorem Fused.name_eq :
    f.name = a ++ "+" ++ b := by
  obtain ⟨tps, -, -, rfl⟩ := eq_of_fuseOps h.fused
  rw [← h.name_left, ← h.name_right]

theorem Fused.outputs_eq :
    f.outputs = B.outputs := by
  obtain ⟨tps, -, -, rfl⟩ := eq_of_fuseOps h.fused
  rfl

theorem Fused.ops_perm :
    g'.ops.Perm (f :: (before ++ mid ++ after)) := by
  rw [h.result]
  exact perm_middle

end

/-- The names of the ops are still different. -/
theorem Fused.names_nodup (hnd : (g.ops.map KernelOp.name).Nodup)
    (h : Fused specs g a b g' spec before mid after A B f t)
    (hfresh : ∀ o ∈ g.ops, o.name ≠ a ++ "+" ++ b) : (g'.ops.map KernelOp.name).Nodup := by
  rw [(h.ops_perm.map KernelOp.name).nodup_iff, map_cons, nodup_cons]
  constructor
  · intro hin
    obtain ⟨o, ho, heq⟩ := mem_map.mp hin
    exact hfresh o (h.mem_ops_iff.mpr (.inr (.inr ho))) (heq.trans h.name_eq)
  · have hsub : (before ++ mid ++ after).Sublist g.ops := by
      rw [h.ops, append_assoc]
      exact (List.Sublist.refl before).append
        (((List.Sublist.refl mid).append (sublist_cons_self B after)).cons A)
    exact hnd.sublist (hsub.map _)

/-- The fused op shows of its leaves what the two ops do, but for the tensor between them. -/
theorem Fused.interface (hwf : WellFormed specs g)
    (h : Fused specs g a b g' spec before mid after A B f t) (hA : A.Plain ∨ A.Chained)
    (hB : B.Plain ∨ B.Chained) : f.Interface where
  reads := by
    intro x
    have hreadsA := (hwf.interface A h.mem_left).reads x
    have hreadsB := (hwf.interface B h.mem_right).reads x
    rw [h.mem_inputs_iff, h.leavesOf_eq hA hB]
    simp only [mem_append, or_imp, forall_and]
    constructor
    · rintro (hx | ⟨hx, hne⟩)
      · obtain ⟨⟨s, hs, hread⟩, hown⟩ := hreadsA.mp hx
        exact ⟨⟨s, .inl hs, hread⟩, hown, fun s' hs' => (h.order hwf hs hs').1 x hread⟩
      · obtain ⟨⟨s, hs, hread⟩, hown⟩ := hreadsB.mp hx
        refine ⟨⟨s, .inr hs, hread⟩, fun s' hs' hwrite => ?_, hown⟩
        -- A tensor inside of the first op is not read by the second.
        rcases h.eq_or_inside hs' hwrite with rfl | hinside
        · exact hne rfl
        · exact (hwf.hidden A h.mem_left x hinside).2 B h.mem_right (h.name_ne hwf) hx
    · rintro ⟨⟨s, hs | hs, hread⟩, hownA, hownB⟩
      · exact .inl (hreadsA.mpr ⟨⟨s, hs, hread⟩, hownA⟩)
      · refine .inr ⟨hreadsB.mpr ⟨⟨s, hs, hread⟩, hownB⟩, fun heq => ?_⟩
        obtain ⟨s', hs', hwrite⟩ := (hwf.interface A h.mem_left).writes x
          (.inl (by simp [h.accepted.outputs, heq]))
        exact hownA s' hs' hwrite
  writes := by
    intro x hx
    have hwritesA := (hwf.interface A h.mem_left).writes x
    have hwritesB := (hwf.interface B h.mem_right).writes x
    rw [h.accepted.outputs, mem_singleton] at hwritesA
    rw [h.mem_internal_iff, h.outputs_eq] at hx
    rw [h.leavesOf_eq hA hB]
    grind

/-- A tensor inside of the fused op was inside of one of the two, or between them. -/
theorem Fused.inside_cases (h : Fused specs g a b g' spec before mid after A B f t)
    (hA : A.Plain ∨ A.Chained) (hB : B.Plain ∨ B.Chained) (hx : f.Inside x) :
    A.Inside x ∨ x = t ∨ B.Inside x := by
  rcases hx with hx | ⟨⟨s, hs, hx⟩, hout⟩
  · rcases h.mem_internal_iff.mp hx with hx | rfl | hx
    · exact .inl (.inl hx)
    · exact .inr (.inl rfl)
    · exact .inr (.inr (.inl hx))
  · rw [h.leavesOf_eq hA hB, mem_append] at hs
    rcases hs with hs | hs
    · rcases h.eq_or_inside hs hx with rfl | hinside
      · exact .inr (.inl rfl)
      · exact .inl hinside
    · exact .inr (.inr (.inr ⟨⟨s, hs, hx⟩, h.outputs_eq ▸ hout⟩))

section
variable (hwf : WellFormed specs g) (h : Fused specs g a b g' spec before mid after A B f t)
  (hA : A.Plain ∨ A.Chained) (hB : B.Plain ∨ B.Chained)
include hwf h hA hB

/-- It is not returned, and the other ops do not read it. -/
theorem Fused.hidden_of_inside (hx : f.Inside x) :
    x ∉ g.outputs ∧ ∀ o ∈ before ++ mid ++ after, x ∉ o.inputs := by
  have hother : ∀ o ∈ before ++ mid ++ after, o ∈ g.ops := fun o ho =>
    h.mem_ops_iff.mpr (.inr (.inr ho))
  rcases h.inside_cases hA hB hx with hx | rfl | hx
  · have hhidden := hwf.hidden A h.mem_left x hx
    exact ⟨hhidden.1, fun o ho => hhidden.2 o (hother o ho) (h.name_ne_of_mem hwf ho).1⟩
  · exact ⟨h.accepted.not_returned, fun o ho => h.notMem_inputs hwf ho⟩
  · have hhidden := hwf.hidden B h.mem_right x hx
    exact ⟨hhidden.1, fun o ho => hhidden.2 o (hother o ho) (h.name_ne_of_mem hwf ho).2⟩

/-- The graph that is returned is well-formed, if no op has the name of the fused one. -/
theorem Fused.wellFormed (hfresh : ∀ o ∈ g.ops, o.name ≠ a ++ "+" ++ b) :
    WellFormed specs g' := by
  have hperm := h.leaves_perm hA hB
  have hmem : ∀ {o : KernelOp}, o ∈ g'.ops ↔ o = f ∨ o ∈ before ++ mid ++ after := fun {o} => by
    rw [h.ops_perm.mem_iff, mem_cons]
  have hother : ∀ {o : KernelOp}, o ∈ before ++ mid ++ after → o ∈ g.ops := fun ho =>
    h.mem_ops_iff.mpr (.inr (.inr ho))
  have hhidden : ∀ o ∈ g.ops, ∀ x, o.Inside x → o.name ≠ A.name → o.name ≠ B.name →
      x ∉ f.inputs := by
    intro o ho x hx hneA hneB hread
    rcases h.mem_inputs_iff.mp hread with hread | ⟨hread, -⟩
    · exact (hwf.hidden o ho x hx).2 A h.mem_left hneA.symm hread
    · exact (hwf.hidden o ho x hx).2 B h.mem_right hneB.symm hread
  constructor
  case names => exact h.names_nodup hwf.names hfresh
  case order => exact h.order_result hwf hA hB
  case self => exact fun s hs => hwf.self s (hperm.mem_iff.mp hs)
  case runs => exact fun s hs => hwf.runs s (hperm.mem_iff.mp hs)
  case aliases => exact hwf.aliases
  case parameters => exact hwf.parameters
  case interface =>
    intro o ho
    rcases hmem.mp ho with rfl | ho
    · exact h.interface hwf hA hB
    · exact hwf.interface o (hother ho)
  case hidden =>
    have houtputs : g'.outputs = g.outputs := by rw [h.result]
    intro o ho x hx
    rw [houtputs]
    rcases hmem.mp ho with rfl | ho
    · have hinside := h.hidden_of_inside hwf hA hB hx
      refine ⟨hinside.1, fun o' ho' hne => ?_⟩
      rcases hmem.mp ho' with rfl | ho'
      · exact absurd rfl hne
      · exact hinside.2 o' ho'
    · have hne := h.name_ne_of_mem hwf ho
      refine ⟨(hwf.hidden o (hother ho) x hx).1, fun o' ho' hne' => ?_⟩
      rcases hmem.mp ho' with rfl | ho'
      · exact hhidden o (hother ho) x hx hne.1 hne.2
      · exact (hwf.hidden o (hother ho) x hx).2 o' (hother ho') hne'

end

end

end ModelBlaster.KernelFusion

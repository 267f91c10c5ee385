import ModelBlaster.KernelFusion.SiblingPlaces

/-!
# Fusion of siblings

The ops that are fused move down to the last of them. No op in between reads what they write, and
they do not depend on one another: the graph stays in order, and computes what it did.

## Main definitions

* `ParFused`: what `fuseSiblings` has checked, and its result;
* `ParBinding`: the arguments of the stages;
* `SiblingsSound`: what is asked of a graph with siblings fused.

## Main results

* `ParFused.order_moved`: the ops are in order at the place of the last one;
* `ParFused.program_eq`: the graph that is returned has their calls there;
* `ParFused.inOrder`, `ParFused.wellFormed`: it is in order, and well-formed;
* `ParBinding.seedProgram_eq`: the composite kernel runs the stages;
* `siblings_sound`: groups that are found pass the test, and groups that are accepted are fused
  soundly.
-/

namespace ModelBlaster.KernelFusion

open Concurrency StraightLine List Fallible

/-! ### What is accepted -/

/-- A graph with siblings fused: what has been checked, and what is returned. -/
structure ParFused (specs : Specs) (g : KernelGraph) (names : List String) (g' : KernelGraph)
    (spec : FusedKernelSpec) (idx : List ℕ) (joined : List String) : Prop where
  /-- The places of the names. -/
  places : ∀ i, i ∈ idx ↔ ∃ name ∈ names, indexOf g name = .ok i
  sorted : idx.Pairwise (· < ·)
  two : 2 ≤ idx.length
  plain : ∀ o ∈ opsAt g.ops idx, o.subOps = []
  independent : IndependentOps (ancestors g.ops) idx
  unread : ∀ o ∈ opsAt g.ops (placesBetween idx), ∀ t ∈ o.inputs,
    t ∉ (opsAt g.ops idx).flatMap KernelOp.outputs
  spec_eq : makeParSpec specs ((opsAt g.ops idx).map KernelOp.op) = .ok spec
  result : g' = ⟨replaceOps g.ops idx (parOp spec joined (opsAt g.ops idx)), g.outputs⟩

section
variable {specs : Specs} {g g' : KernelGraph} {names joined : List String} {spec : FusedKernelSpec}
  {idx : List ℕ}

theorem exists_of_fuseSiblings (h : fuseSiblings specs g names = .ok (g', spec)) :
    ∃ idx joined, ParFused specs g names g' spec idx joined := by
  obtain ⟨found, hfound, h⟩ := bind_eq_ok_iff.mp h
  obtain ⟨hmany, h⟩ := ite_error_eq_ok_iff.mp h
  rw [not_or, not_not, Nat.not_lt] at hmany
  have hlen := length_of_mapM hfound
  -- The places are sorted, with their names.
  have hperm := perm_insertionSort (fun p q : ℕ × String => p.1 ≤ q.1) (found.zip names)
  have hle := pairwise_insertionSort (fun p q : ℕ × String => p.1 ≤ q.1) (found.zip names)
  generalize (found.zip names).insertionSort (fun p q => p.1 ≤ q.1) = order at h hperm hle
  have hfst : (order.map Prod.fst).Perm found := by
    have hmap := hperm.map Prod.fst
    rwa [map_fst_zip (le_of_eq hlen)] at hmap
  obtain ⟨hplain, h⟩ := ite_error_eq_ok_iff.mp h
  obtain ⟨hind, h⟩ := ite_error_eq_ok_iff.mp h
  obtain ⟨hread, h⟩ := ite_error_eq_ok_iff.mp h
  cases hspec : makeParSpec specs ((opsAt g.ops (order.map Prod.fst)).map KernelOp.op) with
  | error e =>
    rw [hspec] at h
    cases h
  | ok spec' =>
    rw [hspec] at h
    cases h
    refine ⟨order.map Prod.fst, order.map Prod.snd, ?_, ?_, ?_, ?_, not_not.mp hind, ?_, hspec, rfl⟩
    · intro i
      rw [hfst.mem_iff]
      constructor
      · intro hi
        obtain ⟨name, hname, hplace⟩ := exists_of_mem_mapM hfound hi
        exact ⟨name, hname, hplace⟩
      · rintro ⟨name, hname, hplace⟩
        obtain ⟨i', hi', hplace'⟩ := exists_of_mapM_eq_ok hfound hname
        rwa [Except.ok.inj (hplace.symm.trans hplace')]
    · have hnodup : (order.map Prod.fst).Nodup := hfst.nodup_iff.mpr hmany.1
      rw [← pairwise_map] at hle
      exact (hle.and hnodup).imp fun h => lt_of_le_of_ne h.1 h.2
    · rw [hfst.length_eq]
      exact hmany.2
    · intro o ho
      by_contra hne
      exact hplain ⟨o, ho, hne⟩
    · intro o ho t ht hmem
      exact hread ⟨o, ho, t, ht, hmem⟩

/-! ### The order of leaves -/

/-- A leaf may come before another: it does not read what that one writes, and they write different
tensors. -/
def Precedes (s s' : KernelOp) : Prop :=
  (∀ t ∈ s.inputs, t ∉ s'.outputs) ∧ ∀ t ∈ s.outputs, t ∉ s'.outputs

variable {ops : List KernelOp} {j i : ℕ}

/-- The leaves of ops are in order, inside of each op and from op to op. -/
theorem pairwise_precedes_iff : (ops.flatMap leavesOf).Pairwise Precedes ↔
    (∀ o ∈ ops, (leavesOf o).Pairwise Precedes) ∧
      ops.Pairwise fun o o' => ∀ s ∈ leavesOf o, ∀ s' ∈ leavesOf o', Precedes s s' :=
  pairwise_flatMap

/-- Ops are in order if their leaves are. -/
theorem inOrder_of_leaves (horder : (ops.flatMap leavesOf).Pairwise Precedes)
    (hinterface : ∀ o ∈ ops, o.Interface) : InOrder ops where
  order := by
    refine (pairwise_precedes_iff.mp horder).2.imp_of_mem fun {o o'} ho ho' h => ?_
    have hwritten : ∀ t ∈ writtenBy o', ∃ s ∈ leavesOf o', t ∈ s.outputs := fun t ht =>
      (hinterface o' ho').writes t (mem_append.mp ht)
    constructor
    · intro t hread hwrite
      obtain ⟨⟨s, hs, hread⟩, -⟩ := ((hinterface o ho).reads t).mp hread
      obtain ⟨s', hs', hwrite⟩ := hwritten t hwrite
      exact (h s hs s' hs').1 t hread hwrite
    · intro t hout hwrite
      obtain ⟨s, hs, hout⟩ := (hinterface o ho).writes t (mem_append.mp hout)
      obtain ⟨s', hs', hwrite⟩ := hwritten t hwrite
      exact (h s hs s' hs').2 t hout hwrite
  self := by
    intro o ho t hread hwrite
    obtain ⟨s, hs, hwrite⟩ := (hinterface o ho).writes t (mem_append.mp hwrite)
    exact (((hinterface o ho).reads t).mp hread).2 s hs hwrite

theorem WellFormed.inOrder (hwf : WellFormed specs g) : InOrder g.ops :=
  inOrder_of_leaves hwf.order hwf.interface

/-- Ops that are independent do not read from one another. -/
theorem not_readsFrom_of_independentOps (hops : InOrder ops)
    (h : IndependentOps (ancestors ops) idx) (hi : i ∈ idx) (hj : j ∈ idx) (hne : i ≠ j)
    (hlt : j < ops.length) : ¬ReadsFrom ops i j := by
  intro hreads
  have hget : (ancestors ops)[j]? = some ((ancestors ops).getD j 0) := by
    have hlen : (ancestors ops).length = ops.length :=
      (ancestorState_spec hops (append_nil ops).symm).length
    rw [getD_eq_getElem?_getD, getElem?_eq_getElem (lt_of_lt_of_eq hlt hlen.symm)]
    rfl
  have hbit := (testBit_ancestors hops hget i).mpr (.single hreads)
  rw [h i hi j hj hne] at hbit
  cases hbit

/-! ### The ops at their new places -/

section
variable (h : ParFused specs g names g' spec idx joined)
include h

theorem ParFused.ne_nil : idx ≠ [] :=
  ne_nil_of_length_pos (Nat.lt_of_lt_of_le Nat.zero_lt_two h.two)

theorem ParFused.lt_length (hi : i ∈ idx) :
    i < g.ops.length := by
  obtain ⟨name, -, hplace⟩ := (h.places i).mp hi
  obtain ⟨o, ho, -⟩ := name_of_indexOf hplace
  exact (List.getElem?_eq_some_iff.mp ho).1

end

/-- The ops in front of the fused one. -/
def opsBefore (g : KernelGraph) (idx : List ℕ) : List KernelOp := opsAt g.ops (frontPlaces idx)

/-- The ops behind the fused one. -/
def opsBehind (g : KernelGraph) (idx : List ℕ) : List KernelOp :=
  opsAt g.ops (backPlaces g.ops.length idx)

section
variable (h : ParFused specs g names g' spec idx joined)
include h

/-- The other ops stand where they stood, around the fused one. -/
theorem ParFused.ops_eq :
    g'.ops = opsBefore g idx ++ parOp spec joined (opsAt g.ops idx) :: opsBehind g idx := by
  rw [h.result]
  exact replaceOps_eq h.sorted h.ne_nil (fun i hi => h.lt_length hi) _

theorem ParFused.perm :
    (opsBefore g idx ++ (opsAt g.ops idx ++ opsBehind g idx)).Perm g.ops := by
  have hperm := (perm_places h.sorted h.ne_nil fun i hi => h.lt_length hi).filterMap (g.ops[·]?)
  have hall := opsAt_range g.ops
  rw [opsAt] at hall
  rw [hall, filterMap_append, filterMap_append] at hperm
  exact hperm

theorem ParFused.mem_ops {o : KernelOp}
    (ho : o ∈ opsBefore g idx ++ (opsAt g.ops idx ++ opsBehind g idx)) : o ∈ g.ops :=
  h.perm.mem_iff.mp ho

end

section
variable (hwf : WellFormed specs g) (h : ParFused specs g names g' spec idx joined)
include hwf h

/-- A sibling may come behind the ops that it passes. -/
theorem ParFused.pass (hi : i ∈ frontPlaces idx) (hj : j ∈ idx) (hlt : j < i) {o o' : KernelOp}
    (ho : g.ops[i]? = some o) (ho' : g.ops[j]? = some o') :
    ∀ s ∈ leavesOf o, ∀ s' ∈ leavesOf o', Precedes s s' := by
  intro s hs s' hs'
  have hplain := h.plain o' (mem_opsAt.mpr ⟨j, hj, ho'⟩)
  rw [leavesOf_of_subOps_nil hplain] at hs'
  obtain rfl := mem_singleton.mp hs'
  have hback : ∀ s'' ∈ leavesOf o, Precedes s' s'' := fun s'' hs'' =>
    pairwise_opsAt (pairwise_precedes_iff.mp hwf.order).2 hlt ho' ho s'
      (by rw [leavesOf_of_subOps_nil hplain]; exact mem_singleton_self s') s'' hs''
  constructor
  · intro t hread hwrite
    rcases (hwf.interface o (mem_of_getElem? ho)).mem_inputs hs hread with
      hin | ⟨s'', hs'', hout⟩
    · -- It stands between the first sibling and the last.
      obtain ⟨hlast, hnot⟩ := mem_frontPlaces.mp hi
      have hbetween : i ∈ placesBetween idx := by
        have hfirst := headD_le h.sorted hj
        rw [placesBetween, mem_filter, mem_range, decide_eq_true_iff]
        exact ⟨hlast, Nat.lt_of_le_of_lt hfirst hlt, hnot⟩
      exact h.unread o (mem_opsAt.mpr ⟨i, hbetween, ho⟩) t hin
        (mem_flatMap.mpr ⟨s', mem_opsAt.mpr ⟨j, hj, ho'⟩, hwrite⟩)
    · exact (hback s'' hs'').2 t hwrite hout
  · intro t hout hwrite
    exact (hback s hs).2 t hwrite hout

/-- The leaves are in order with the siblings at the place of the last one. -/
theorem ParFused.order_moved :
    ((opsBefore g idx ++ (opsAt g.ops idx ++ opsBehind g idx)).flatMap leavesOf).Pairwise
      Precedes := by
  obtain ⟨hinside, hcross⟩ := pairwise_precedes_iff.mp hwf.order
  refine pairwise_precedes_iff.mpr ⟨fun o ho => hinside o (h.mem_ops ho), ?_⟩
  rw [opsBefore, opsBehind, ← opsAt_append, ← opsAt_append]
  apply pairwise_move hcross h.sorted
  intro i hi j hj hlt o o' ho ho'
  exact h.pass hwf hi hj hlt ho ho'

/-- No sibling reads what a sibling writes. -/
theorem ParFused.notMem_outputs {o o' : KernelOp} (ho : o ∈ opsAt g.ops idx)
    (ho' : o' ∈ opsAt g.ops idx) {t : String} (hread : t ∈ o.inputs) : t ∉ o'.outputs := by
  intro hwrite
  obtain ⟨i, hi, hget⟩ := mem_opsAt.mp ho
  obtain ⟨j, hj, hget'⟩ := mem_opsAt.mp ho'
  by_cases hij : j = i
  · subst hij
    obtain rfl := Option.some.inj (hget.symm.trans hget')
    exact hwf.inOrder.self o (mem_of_getElem? hget) t hread (mem_append_left _ hwrite)
  · exact not_readsFrom_of_independentOps hwf.inOrder h.independent hj hi hij (h.lt_length hi)
      ⟨o', o, t, hget', hget, mem_append_left _ hwrite, hread⟩

end

/-! ### Stages -/

/-- No kernel has a parameter that is named like a field that the stages are stripped of. -/
def StrippedUnread (specs : Specs) : Prop :=
  ∀ kind params, paramsOf specs kind = .ok params → ∀ p ∈ params, p.name ∉ strippedFields

theorem get?_fields_asStage (o : KernelOp) {k : String} (hk : k ∉ strippedFields) :
    (asStage o).fields.get? k = o.fields.get? k := by
  show (strippedFields.foldl PyDict.pop o.fields).get? k = _
  rw [PyDict.get?_foldl_pop, if_neg hk]

/-- A stage takes the weights that the op takes. -/
theorem weightArg_asStage (o : KernelOp) (p : Param) : weightArg (asStage o) p = weightArg o p := by
  have hrole : ∀ role, weightRole p.name = some role → role ∉ strippedFields := by
    intro role hrole
    unfold weightRole at hrole
    split at hrole <;> cases hrole <;> decide
  have hkey : (weightRole p.name).bind (asStage o).fields.get? =
      (weightRole p.name).bind o.fields.get? := by
    cases h : weightRole p.name with
    | none => rfl
    | some role => exact get?_fields_asStage o (hrole role h)
  rw [weightArg, weightArg, hkey]

theorem scalarValue_asStage (o : KernelOp) {name : String} (h : name ∉ strippedFields) :
    scalarValue (asStage o) name = scalarValue o name := by
  have halias : (fieldAlias name).bind (asStage o).fields.get? =
      (fieldAlias name).bind o.fields.get? := by
    rw [fieldAlias]
    split_ifs
    · exact get?_fields_asStage o (by decide)
    · rfl
  have hfield : fieldScalar (asStage o) name = fieldScalar o name := by
    rw [fieldScalar, fieldScalar, get?_fields_asStage o h, halias]
    rfl
  rw [scalarValue, scalarValue, hfield]
  rfl

/-- A stage is bound as the op is. -/
theorem bindParams_asStage (o : KernelOp) {params : List Param}
    (h : ∀ p ∈ params, p.name ∉ strippedFields) (ins outs : List String) :
    bindParams (asStage o) params ins outs = bindParams o params ins outs := by
  induction params generalizing ins outs with
  | nil => rfl
  | cons p ps ih =>
    have hps := ih fun p' hp' => h p' (mem_cons_of_mem p hp')
    simp only [bindParams, weightArg_asStage, scalarValue_asStage o (h p mem_cons_self), hps]

theorem bindOp_asStage (hstripped : StrippedUnread specs) (o : KernelOp) :
    bindOp specs (asStage o) = bindOp specs o := by
  rw [bindOp, bindOp]
  show (paramsOf specs o.op >>= _) = _
  cases hparams : paramsOf specs o.op with
  | error e => rfl
  | ok params => exact bindParams_asStage o (hstripped o.op params hparams) o.inputs o.outputs

/-- The fused op reads what the siblings read. -/
theorem mem_inputs_parOp {sel : List KernelOp} {t : String} :
    t ∈ (parOp spec joined sel).inputs ↔ ∃ o ∈ sel, t ∈ o.inputs := by
  show t ∈ PyList.orderedUnique (sel.flatMap KernelOp.inputs) ↔ _
  rw [PyList.mem_orderedUnique, mem_flatMap]

section
variable (h : ParFused specs g names g' spec idx joined)
include h

variable {o : KernelOp} {V : Type}

theorem ParFused.exists_paramsOf (ho : o ∈ opsAt g.ops idx) :
    ∃ params, paramsOf specs o.op = .ok params := by
  obtain ⟨sigs, hsigs, -⟩ := bind_eq_ok_iff.mp h.spec_eq
  obtain ⟨params, -, hparams⟩ := exists_of_mapM_eq_ok hsigs (mem_map_of_mem ho)
  exact ⟨params, hparams⟩

/-- The siblings have kernels. -/
theorem ParFused.notMem_aliasOps (hwf : WellFormed specs g) (ho : o ∈ opsAt g.ops idx) :
    o.op ∉ aliasOps := by
  intro hkind
  obtain ⟨params, hparams⟩ := h.exists_paramsOf ho
  rw [hwf.aliases o.op hkind] at hparams
  cases hparams

theorem ParFused.mem_leaves (ho : o ∈ opsAt g.ops idx) :
    o ∈ g.ops.flatMap leavesOf := by
  obtain ⟨i, -, hget⟩ := mem_opsAt.mp ho
  refine mem_flatMap.mpr ⟨o, mem_of_getElem? hget, ?_⟩
  rw [leavesOf_of_subOps_nil (h.plain o ho)]
  exact mem_singleton_self o

theorem ParFused.exists_bindOp (hwf : WellFormed specs g) (ho : o ∈ opsAt g.ops idx) :
    ∃ args, bindOp specs o = .ok args :=
  (hwf.runs o (h.mem_leaves ho)).resolve_left (h.notMem_aliasOps hwf ho)

/-- The leaves of the siblings are the siblings. -/
theorem ParFused.flatMap_leavesOf :
    (opsAt g.ops idx).flatMap leavesOf = opsAt g.ops idx := by
  rw [flatMap_def, map_congr_left fun o ho => leavesOf_of_subOps_nil (h.plain o ho),
    ← flatMap_def, flatMap_singleton']

theorem ParFused.siblings_ne_nil : opsAt g.ops idx ≠ [] := by
  obtain ⟨i, hi⟩ := exists_mem_of_ne_nil idx h.ne_nil
  have hget := getElem?_eq_getElem (h.lt_length hi)
  exact ne_nil_of_mem (mem_opsAt.mpr ⟨i, hi, hget⟩)

/-- The leaves of the fused op are its stages. -/
theorem ParFused.leavesOf_parOp :
    leavesOf (parOp spec joined (opsAt g.ops idx)) = (opsAt g.ops idx).map asStage := by
  have hne : (parOp spec joined (opsAt g.ops idx)).subOps ≠ [] := by
    simpa [parOp] using h.siblings_ne_nil
  have hleaf : ∀ s ∈ (opsAt g.ops idx).map asStage, leavesOf s = [s] := by
    intro s hs
    obtain ⟨o, ho, rfl⟩ := mem_map.mp hs
    exact leavesOf_of_subOps_nil (h.plain o ho)
  rw [leavesOf_of_subOps hne]
  show ((opsAt g.ops idx).map asStage).flatMap leavesOf = _
  rw [flatMap_def, map_congr_left hleaf, ← flatMap_def, flatMap_singleton']

/-- The leaves of the graph that is returned. -/
theorem ParFused.leaves_eq : g'.ops.flatMap leavesOf =
    (opsBefore g idx).flatMap leavesOf ++
      ((opsAt g.ops idx).map asStage ++ (opsBehind g idx).flatMap leavesOf) := by
  rw [h.ops_eq, flatMap_append, flatMap_cons, h.leavesOf_parOp]

/-- The leaves with the siblings at the place of the last one. -/
theorem ParFused.leaves_moved :
    (opsBefore g idx ++ (opsAt g.ops idx ++ opsBehind g idx)).flatMap leavesOf =
      (opsBefore g idx).flatMap leavesOf ++
        (opsAt g.ops idx ++ (opsBehind g idx).flatMap leavesOf) := by
  rw [flatMap_append, flatMap_append, h.flatMap_leavesOf]

/-! ### What the graph computes -/

/-- A stage does what the op did. -/
theorem ParFused.leafInstr_asStage (K : Kernels V) (hwf : WellFormed specs g)
    (hstripped : StrippedUnread specs) (ho : o ∈ opsAt g.ops idx) :
    leafInstr K specs (asStage o) = leafInstr K specs o := by
  have hkind := h.notMem_aliasOps hwf ho
  obtain ⟨args, hargs⟩ := h.exists_bindOp hwf ho
  rw [leafInstr_of_bindOp K hkind hargs]
  exact leafInstr_of_bindOp K hkind ((bindOp_asStage hstripped o).trans hargs)

/-- The graph that is returned has the calls of the siblings at the place of the last one. -/
theorem ParFused.program_eq (K : Kernels V) (hwf : WellFormed specs g)
    (hstripped : StrippedUnread specs) : program K specs g'.ops =
      program K specs (opsBefore g idx ++ (opsAt g.ops idx ++ opsBehind g idx)) := by
  have hstages : ((opsAt g.ops idx).map asStage).map (leafInstr K specs) =
      (opsAt g.ops idx).map (leafInstr K specs) := by
    rw [map_map]
    exact map_congr_left fun o ho => h.leafInstr_asStage K hwf hstripped ho
  rw [program, program, h.leaves_eq, h.leaves_moved, map_append, map_append, hstages,
    ← map_append, ← map_append]

theorem ParFused.scheduled (K : Kernels V) (hwf : WellFormed specs g) :
    StraightLine.Scheduled
      (program K specs (opsBefore g idx ++ (opsAt g.ops idx ++ opsBehind g idx))) :=
  scheduled_map_leafInstr K
    (fun s hs => hwf.runs s ((h.perm.flatMap_right leavesOf).mem_iff.mp hs)) (h.order_moved hwf)

/-- The graph that is returned computes what the graph computes. -/
theorem ParFused.run_eq (K : Kernels V) (hwf : WellFormed specs g)
    (hstripped : StrippedUnread specs) (σ : String → V) :
    run (program K specs g'.ops) σ = run (program K specs g.ops) σ := by
  rw [h.program_eq K hwf hstripped]
  exact run_eq_of_perm ((h.perm.flatMap_right leavesOf).map _) (h.scheduled K hwf)
    (scheduled_map_leafInstr K hwf.runs hwf.order) σ

/-! ### What is left behind -/

/-- The leaves of the graph that is returned are in order. -/
theorem ParFused.order_result (hwf : WellFormed specs g) :
    (g'.ops.flatMap leavesOf).Pairwise Precedes := by
  have horder := h.order_moved hwf
  rw [h.leaves_moved] at horder
  rw [h.leaves_eq]
  -- A stage has the inputs and outputs of the op.
  simp only [pairwise_append, pairwise_map, mem_append, or_imp, forall_and,
    forall_mem_map] at horder ⊢
  exact horder

/-- The fused op shows what its stages read and write. -/
theorem ParFused.interface_parOp (hwf : WellFormed specs g) :
    (parOp spec joined (opsAt g.ops idx)).Interface where
  reads := by
    intro t
    rw [h.leavesOf_parOp]
    rw [mem_inputs_parOp]
    constructor
    · rintro ⟨o, ho, hread⟩
      refine ⟨⟨asStage o, mem_map_of_mem ho, hread⟩, fun s hs => ?_⟩
      obtain ⟨o', ho', rfl⟩ := mem_map.mp hs
      exact h.notMem_outputs hwf ho ho' hread
    · rintro ⟨⟨s, hs, hread⟩, -⟩
      obtain ⟨o, ho, rfl⟩ := mem_map.mp hs
      exact ⟨o, ho, hread⟩
  writes := by
    rintro t (hout | hinside)
    · obtain ⟨o, ho, hwrite⟩ := mem_flatMap.mp hout
      rw [h.leavesOf_parOp]
      exact ⟨asStage o, mem_map_of_mem ho, hwrite⟩
    · cases hinside

/-- Nothing is inside of the fused op. -/
theorem ParFused.not_inside (t : String) :
    ¬(parOp spec joined (opsAt g.ops idx)).Inside t := by
  rintro (hinside | ⟨⟨s, hs, hwrite⟩, hout⟩)
  · cases hinside
  · rw [h.leavesOf_parOp] at hs
    obtain ⟨o, ho, rfl⟩ := mem_map.mp hs
    exact hout (mem_flatMap.mpr ⟨o, ho, hwrite⟩)

theorem ParFused.mem_result_iff : o ∈ g'.ops ↔
    o = parOp spec joined (opsAt g.ops idx) ∨ o ∈ opsBefore g idx ++ opsBehind g idx := by
  rw [h.ops_eq, perm_middle.mem_iff, mem_cons]

theorem ParFused.perm_others :
    (opsAt g.ops idx ++ (opsBefore g idx ++ opsBehind g idx)).Perm g.ops :=
  (perm_append_comm_assoc _ _ _).trans h.perm

theorem ParFused.mem_of_mem_others (ho : o ∈ opsBefore g idx ++ opsBehind g idx) : o ∈ g.ops :=
  h.perm_others.mem_iff.mp (mem_append_right _ ho)

theorem ParFused.mem_of_mem_siblings (ho : o ∈ opsAt g.ops idx) : o ∈ g.ops :=
  h.perm_others.mem_iff.mp (mem_append_left _ ho)

section
variable (hwf : WellFormed specs g)
include hwf

theorem ParFused.interface (ho : o ∈ g'.ops) :
    o.Interface := by
  rcases h.mem_result_iff.mp ho with rfl | ho
  · exact h.interface_parOp hwf
  · exact hwf.interface o (h.mem_of_mem_others ho)

/-- The graph that is returned is in order. -/
theorem ParFused.inOrder : InOrder g'.ops :=
  inOrder_of_leaves (h.order_result hwf) fun _ ho => h.interface hwf ho

/-- The other ops have other names. -/
theorem ParFused.name_ne {o' : KernelOp} (ho : o ∈ opsBefore g idx ++ opsBehind g idx)
    (ho' : o' ∈ opsAt g.ops idx) :
    o'.name ≠ o.name := by
  have hnd := (h.perm_others.map KernelOp.name).nodup_iff.mpr hwf.names
  rw [map_append] at hnd
  exact (nodup_append.mp hnd).2.2 _ (mem_map_of_mem ho') _ (mem_map_of_mem ho)

theorem ParFused.names_nodup (hfresh : ∀ o ∈ g.ops, o.name ≠ "+".intercalate joined) :
    (g'.ops.map KernelOp.name).Nodup := by
  have hnd := (h.perm_others.map KernelOp.name).nodup_iff.mpr hwf.names
  rw [map_append] at hnd
  rw [h.ops_eq, (perm_middle.map KernelOp.name).nodup_iff, map_cons, nodup_cons]
  refine ⟨fun hmem => ?_, (nodup_append.mp hnd).2.1⟩
  obtain ⟨o, ho, heq⟩ := mem_map.mp hmem
  exact hfresh o (h.mem_of_mem_others ho) heq

/-- The leaves of the graph that is returned have the inputs, outputs and kinds of those of the
graph. -/
theorem ParFused.exists_leaf (hstripped : StrippedUnread specs) {s : KernelOp}
    (hs : s ∈ g'.ops.flatMap leavesOf) : ∃ s' ∈ g.ops.flatMap leavesOf,
      s.inputs = s'.inputs ∧ s.outputs = s'.outputs ∧ s.Runs specs := by
  have hperm := h.perm.flatMap_right leavesOf
  rw [h.leaves_moved] at hperm
  rw [h.leaves_eq, mem_append, mem_append] at hs
  have hkept : ∀ {s : KernelOp}, s ∈ (opsBefore g idx).flatMap leavesOf ∨
      s ∈ (opsBehind g idx).flatMap leavesOf → s ∈ g.ops.flatMap leavesOf := by
    intro s hs
    rw [← hperm.mem_iff, mem_append, mem_append]
    exact hs.imp_right .inr
  rcases hs with hs | hs | hs
  · exact ⟨s, hkept (.inl hs), rfl, rfl, hwf.runs s (hkept (.inl hs))⟩
  · obtain ⟨o, ho, rfl⟩ := mem_map.mp hs
    obtain ⟨args, hargs⟩ := h.exists_bindOp hwf ho
    exact ⟨o, h.mem_leaves ho, rfl, rfl, .inr ⟨args, (bindOp_asStage hstripped o).trans hargs⟩⟩
  · exact ⟨s, hkept (.inr hs), rfl, rfl, hwf.runs s (hkept (.inr hs))⟩

/-- The graph that is returned is well-formed, if no op has the name of the fused one. -/
theorem ParFused.wellFormed (hstripped : StrippedUnread specs)
    (hfresh : ∀ o ∈ g.ops, o.name ≠ "+".intercalate joined) : WellFormed specs g' := by
  have houtputs : g'.outputs = g.outputs := by rw [h.result]
  constructor
  case names => exact h.names_nodup hwf hfresh
  case order => exact h.order_result hwf
  case self =>
    intro s hs
    obtain ⟨s', hs', hinputs, hout, -⟩ := h.exists_leaf hwf hstripped hs
    rw [hinputs, hout]
    exact hwf.self s' hs'
  case runs =>
    intro s hs
    obtain ⟨s', -, -, -, hruns⟩ := h.exists_leaf hwf hstripped hs
    exact hruns
  case aliases => exact hwf.aliases
  case parameters => exact hwf.parameters
  case interface => exact fun o ho => h.interface hwf ho
  case hidden =>
    intro o ho t hinside
    rcases h.mem_result_iff.mp ho with rfl | ho
    · exact absurd hinside (h.not_inside t)
    · obtain ⟨hreturned, hothers⟩ := hwf.hidden o (h.mem_of_mem_others ho) t hinside
      rw [houtputs]
      refine ⟨hreturned, fun o' ho' hne => ?_⟩
      rcases h.mem_result_iff.mp ho' with rfl | ho'
      · rw [mem_inputs_parOp]
        rintro ⟨o'', ho'', hread⟩
        exact hothers o'' (h.mem_of_mem_siblings ho'') (h.name_ne hwf ho ho'') hread
      · exact hothers o' (h.mem_of_mem_others ho') hne

end

end

end

/-! ## The call of siblings -/

/-! ### Binding -/

section
variable {specs : Specs}

/-- A stage without a tensor in front of it, or behind it, adds all its arguments. -/
theorem bindStage_nil (n : ℕ) (stage : KernelOp × ℕ) :
    bindStage specs [] n stage = bindOp specs stage.1 := by
  obtain ⟨s, i⟩ := stage
  have hscratch : asScratch [] n i = id := by
    funext a
    rw [asScratch]
    split
    · exact if_neg fun h => by cases h.2
    · rfl
  have hreads : ∀ a, readsPrevious [] i a = false := by
    rintro ⟨v, p⟩
    cases i <;> cases v <;> rfl
  rw [bindStage]
  simp only [hreads, hscratch, map_id, Bool.not_false, filter_true]
  cases bindOp specs s <;> rfl

/-- An op without tensors inside is bound stage by stage. -/
theorem bindFused_of_internal_nil {f : KernelOp} (hinternal : f.internal = [])
    {stageArgs : List (List Arg)} (h : f.subOps.mapM (bindOp specs) = .ok stageArgs) :
    bindFused specs f = .ok stageArgs.flatten := by
  have hstages : f.subOps.zipIdx.mapM (bindStage specs f.internal f.subOps.length) =
      .ok stageArgs := by
    have hmap : f.subOps.zipIdx.mapM (bindOp specs ∘ Prod.fst) = .ok stageArgs := by
      rw [← h, ← mapM_map, zipIdx_map_fst]
    rw [hinternal, funext (bindStage_nil f.subOps.length)]
    exact hmap
  rw [bindFused, hstages]
  rfl

/-- The parts of the spec of siblings. -/
theorem eq_of_makeParSpec {kinds : List String} {spec : FusedKernelSpec}
    (h : makeParSpec specs kinds = .ok spec) : ∃ sigs params,
      kinds.mapM (paramsOf specs) = .ok sigs ∧ sigs.zipIdx.mapM parStageParams = .ok params ∧
        spec = ⟨parKind kinds, params.flatten, kinds, List.replicate (kinds.length - 1) none,
          true⟩ := by
  obtain ⟨sigs, hsigs, h⟩ := bind_eq_ok_iff.mp h
  obtain ⟨params, hparams, h⟩ := bind_eq_ok_iff.mp h
  cases h
  exact ⟨sigs, params, hsigs, hparams, rfl⟩

/-- The arguments of a stage: it reads its inputs, and writes its outputs. -/
structure StageArgs (specs : Specs) (s : KernelOp) (args : List Arg) : Prop where
  bound : ∃ params, paramsOf specs s.op = .ok params ∧ Bound params s.inputs s.outputs args
  bindOp_eq : bindOp specs s = .ok args

/-- What is known of the stages of siblings. -/
structure ParBinding (specs : Specs) (stages : List KernelOp) (spec : FusedKernelSpec)
    (stageArgs : List (List Arg)) : Prop where
  bound : List.Forall₂ (StageArgs specs) stages stageArgs
  letters : stages.length ≤ stageLetters.length
  /-- The parameters are those that the arguments are for, with the letters of their stages. -/
  params : spec.params = (tagged stageArgs).map signatureParam
  subOps : spec.subOps = stages.map KernelOp.op

variable {stages : List KernelOp} {spec : FusedKernelSpec} {stageArgs : List (List Arg)}

theorem exists_parBinding (hbinds : ∀ s ∈ stages, ∃ args, bindOp specs s = .ok args)
    (hspec : makeParSpec specs (stages.map KernelOp.op) = .ok spec) :
    ∃ stageArgs, stages.mapM (bindOp specs) = .ok stageArgs ∧
      ParBinding specs stages spec stageArgs := by
  obtain ⟨sigs, params, hsigs, hparams, rfl⟩ := eq_of_makeParSpec hspec
  obtain ⟨stageArgs, hargs⟩ := exists_mapM_eq_ok hbinds
  have hlenArgs := length_of_mapM hargs
  have hlenSigs := (length_of_mapM hsigs).trans (length_map _)
  have hlenParams := (length_of_mapM hparams).trans length_zipIdx
  -- The parameters of each stage in the signature are those of its arguments.
  have hpart : ∀ (i : ℕ) l, stageArgs[i]? = some l → i < stageLetters.length ∧
      params[i]? = some (l.map fun a => signatureParam (i, a)) := by
    intro i l hl
    obtain ⟨s, hs⟩ : ∃ s, stages[i]? = some s :=
      ⟨_, getElem?_eq_getElem (hlenArgs ▸ (List.getElem?_eq_some_iff.mp hl).1)⟩
    obtain ⟨l', hl', hbind⟩ := getElem?_of_mapM hargs hs
    obtain rfl := Option.some.inj (hl.symm.trans hl')
    obtain ⟨ps, hps, hbound⟩ := bound_of_bindOp hbind
    obtain ⟨ps', hps', hparamsOf⟩ := getElem?_of_mapM hsigs
      (show (stages.map KernelOp.op)[i]? = some s.op by rw [getElem?_map, hs]; rfl)
    obtain rfl : ps = ps' := Except.ok.inj (hps.symm.trans hparamsOf)
    obtain ⟨q, hq, hrun⟩ := getElem?_of_mapM hparams
      (show sigs.zipIdx[i]? = some (ps, i) by rw [getElem?_zipIdx, hps']; simp)
    obtain ⟨letter, hletter, hrun⟩ := bind_eq_ok_iff.mp hrun
    obtain ⟨hi, rfl⟩ := stagePrefix_eq_ok_iff.mp hletter
    refine ⟨hi, ?_⟩
    rw [hq, ← Except.ok.inj hrun, ← hbound.params, map_map]
    rfl
  refine ⟨stageArgs, hargs, ?_, ?_, ?_, rfl⟩
  · refine (mapM_eq_ok_iff.mp hargs).imp fun s args hbind => ?_
    exact ⟨bound_of_bindOp hbind, hbind⟩
  · by_contra hlong
    obtain ⟨l, hl⟩ : ∃ l, stageArgs[stageLetters.length]? = some l :=
      ⟨_, getElem?_eq_getElem (by omega)⟩
    exact absurd (hpart _ l hl).1 (Nat.lt_irrefl _)
  · exact flatten_eq_map_tagged (by omega) fun i l hl => (hpart i l hl).2

theorem ParBinding.length_stageArgs (h : ParBinding specs stages spec stageArgs) :
    stageArgs.length = stages.length := h.bound.length_eq.symm

/-- The fused op has an argument for each parameter of its signature, in their order. -/
theorem ParBinding.matchesSignature (h : ParBinding specs stages spec stageArgs) :
    MatchesSignature spec.signature stageArgs.flatten :=
  matchesSignature_of_tagged h.params (h.length_stageArgs ▸ h.letters)

/-- A stage that writes has a pointer that is written through. -/
theorem StageArgs.exists_firstOut {s : KernelOp} {args : List Arg} (h : StageArgs specs s args)
    (hout : s.outputs ≠ []) {params : List Param} (hparams : paramsOf specs s.op = .ok params) :
    ∃ name, firstOut params = .ok name := by
  obtain ⟨params', hparams', hbound⟩ := h.bound
  obtain rfl := Except.ok.inj (hparams.symm.trans hparams')
  obtain ⟨t, ht⟩ := exists_mem_of_ne_nil _ hout
  rw [← hbound.outputs] at ht
  obtain ⟨⟨v, p⟩, ha, hvalue⟩ := mem_filterMap.mp ht
  have hptr : p.isOutPtr = true := by
    have hfits := hbound.fits _ ha
    cases v <;> cases hvalue
    exact hfits
  have hmem : p ∈ params := by
    rw [← hbound.params]
    exact mem_map_of_mem ha
  obtain ⟨q, hq⟩ := Option.isSome_iff_exists.mp (find?_isSome.mpr ⟨p, hmem, hptr⟩)
  exact ⟨q.name, by rw [firstOut, hq]⟩

/-- The composite kernel runs the stages. -/
theorem ParBinding.seedProgram_eq {V : Type} (K : Kernels V)
    (h : ParBinding specs stages spec stageArgs)
    (hparameters : ∀ kind params, paramsOf specs kind = .ok params → (params.map Param.name).Nodup)
    (hkinds : ∀ s ∈ stages, s.op ∉ aliasOps) (houtputs : ∀ s ∈ stages, s.outputs ≠ []) :
    parSeedProgram specs K spec stageArgs.flatten = .ok (stages.map (leafInstr K specs)) := by
  have hstage : ∀ (i : ℕ) s, stages[i]? = some s →
      ∃ args, stageArgs[i]? = some args ∧ StageArgs specs s args := by
    intro i s hs
    obtain ⟨hlt, rfl⟩ := List.getElem?_eq_some_iff.mp hs
    have hlt' : i < stageArgs.length := h.length_stageArgs ▸ hlt
    exact ⟨_, getElem?_eq_getElem hlt', h.bound.get hlt hlt'⟩
  have hargs : ∀ s ∈ stages, ∃ args, StageArgs specs s args := by
    intro s hs
    obtain ⟨i, hi⟩ := mem_iff_getElem?.mp hs
    obtain ⟨args, -, hargs⟩ := hstage i s hi
    exact ⟨args, hargs⟩
  obtain ⟨sigs, hsigs⟩ : ∃ sigs, (stages.map KernelOp.op).mapM (paramsOf specs) = .ok sigs := by
    apply exists_mapM_eq_ok
    intro kind hkind
    obtain ⟨s, hs, rfl⟩ := mem_map.mp hkind
    obtain ⟨args, ⟨params, hparams, -⟩, -⟩ := hargs s hs
    exact ⟨params, hparams⟩
  obtain ⟨outs, houts⟩ : ∃ outs, sigs.mapM firstOut = .ok outs := by
    apply exists_mapM_eq_ok
    intro params hparams
    obtain ⟨kind, hkind, hkindParams⟩ := exists_of_mem_mapM hsigs hparams
    obtain ⟨s, hs, rfl⟩ := mem_map.mp hkind
    obtain ⟨args, hargs⟩ := hargs s hs
    exact hargs.exists_firstOut (houtputs s hs) hkindParams
  -- Each call passes the parameters of its stage.
  have hpass : ∀ (i : ℕ) s, stages[i]? = some s → ∃ args, bindOp specs s = .ok args ∧
      ∀ a ∈ args, ∃ name, (stagePrefix i >>= fun letter => pure (a.param, letter ++ a.param.name)) =
        .ok (a.param, name) ∧
          resolve spec.signature stageArgs.flatten name = .ok a.value.place := by
    intro i s hs
    obtain ⟨args, hget, ⟨params, hparams, hbound⟩, hbind⟩ := hstage i s hs
    have hnames := hparameters _ _ hparams
    rw [← hbound.params, map_map] at hnames
    have hi : i < stageLetters.length :=
      Nat.lt_of_lt_of_le (List.getElem?_eq_some_iff.mp hs).1 h.letters
    refine ⟨args, hbind, fun a ha => ⟨letterOf i ++ a.param.name, ?_, ?_⟩⟩
    · rw [stagePrefix_eq_ok_iff.mpr ⟨hi, rfl⟩]
      rfl
    · exact resolve_of_tagged h.params (h.length_stageArgs ▸ h.letters) hget ha
        fun a' ha' hname => inj_on_of_nodup_map hnames ha' ha hname
  obtain ⟨calls, hcalls, hrun⟩ := @exists_calls _ K _ _ _ _ _
    (fun i p => stagePrefix i >>= fun letter => pure (p, letter ++ p.name)) hsigs hkinds hpass
  have hseed : parSeedCalls specs spec = .ok calls := by
    rw [parSeedCalls, h.subOps, hsigs]
    show (sigs.mapM firstOut >>= _) = _
    rw [houts]
    exact hcalls
  rw [parSeedProgram, hseed]
  exact hrun

end

/-! ### Soundness -/

/-- A graph, with the ops at some places of another one fused. -/
structure SiblingsSound (specs : Specs) (g g' : KernelGraph) (spec : FusedKernelSpec)
    (idx : List ℕ) (f : KernelOp) : Prop where
  /-- The fused op stands at the place of the last one, and the others stand around it. -/
  ops : g'.ops = opsBefore g idx ++ f :: opsBehind g idx
  others : (opsAt g.ops idx ++ (opsBefore g idx ++ opsBehind g idx)).Perm g.ops
  returned : g'.outputs = g.outputs
  inOrder : InOrder g'.ops
  wellFormed : (∀ o ∈ g.ops, o.name ≠ f.name) → WellFormed specs g'
  kind : f.op = spec.op
  stages : f.subOps = (opsAt g.ops idx).map asStage
  /-- The graph computes what it did. -/
  run_eq : ∀ (V : Type) (K : Kernels V) σ,
    run (program K specs g'.ops) σ = run (program K specs g.ops) σ
  /-- The arguments are those of the stages, one for each parameter. With them the composite kernel
  computes what the stages did, in any order. -/
  call : ∃ stageArgs, bindFused specs f = .ok stageArgs.flatten ∧
    ParBinding specs f.subOps spec stageArgs ∧
    MatchesSignature spec.signature stageArgs.flatten ∧
    ((∀ s ∈ f.subOps, s.outputs ≠ []) → ∀ (V : Type) (K : Kernels V), ∃ prog,
      parSeedProgram specs K spec stageArgs.flatten = .ok prog ∧ ∀ prog' : List (Instr String V),
        prog'.Perm prog → ∀ σ, run (program K specs (opsBefore g idx) ++ prog' ++
          program K specs (opsBehind g idx)) σ = run (program K specs g.ops) σ)

section
variable {specs : Specs} {g g' : KernelGraph} {names joined : List String} {spec : FusedKernelSpec}
  {idx : List ℕ}

/-- The calls of siblings are independent of one another. -/
theorem ParFused.pairwise_independent {V : Type} (K : Kernels V) (hwf : WellFormed specs g)
    (h : ParFused specs g names g' spec idx joined) :
    ((opsAt g.ops idx).map (leafInstr K specs)).Pairwise Independent := by
  have horder := h.order_moved hwf
  rw [h.leaves_moved] at horder
  have hsiblings := (pairwise_append.mp (pairwise_append.mp horder).2.1).1
  rw [pairwise_map]
  refine hsiblings.imp_of_mem fun {o o'} ho ho' hprecedes => ?_
  obtain ⟨hreads, hwrites⟩ := reads_leafInstr K (hwf.runs o (h.mem_leaves ho))
  obtain ⟨hreads', hwrites'⟩ := reads_leafInstr K (hwf.runs o' (h.mem_leaves ho'))
  constructor
  · rw [hreads, hwrites']
    exact hprecedes.1
  · rw [hreads', hwrites]
    exact fun t ht => h.notMem_outputs hwf ho' ho ht
  · rw [hwrites, hwrites']
    exact hprecedes.2

/-- The calls of siblings may run in any order. -/
theorem ParFused.run_any_order {V : Type} (K : Kernels V) (hwf : WellFormed specs g)
    (h : ParFused specs g names g' spec idx joined) {prog : List (Instr String V)}
    (hperm : prog.Perm ((opsAt g.ops idx).map (leafInstr K specs))) (σ : String → V) :
    run (program K specs (opsBefore g idx) ++ prog ++ program K specs (opsBehind g idx)) σ =
      run (program K specs g.ops) σ := by
  have hsiblings : program K specs (opsAt g.ops idx) =
      (opsAt g.ops idx).map (leafInstr K specs) := by rw [program, h.flatMap_leavesOf]
  have hsched := h.scheduled K hwf
  rw [program_append, program_append, hsiblings] at hsched
  have hmid : prog.Pairwise MayPrecede :=
    (((hperm.pairwise_iff fun {x y} hxy => hxy.symm).mpr (h.pairwise_independent K hwf)).imp
      fun hxy => ⟨hxy.left, hxy.writes⟩)
  have hall : (program K specs (opsBefore g idx) ++
      (prog ++ program K specs (opsBehind g idx))).Perm (program K specs g.ops) :=
    ((hperm.append_right _).append_left _).trans (by
      rw [← hsiblings, ← program_append, ← program_append]
      exact (h.perm.flatMap_right leavesOf).map _)
  rw [append_assoc]
  refine run_eq_of_perm hall ?_ (scheduled_map_leafInstr K hwf.runs hwf.order) σ
  obtain ⟨hbefore, hrest, hcross⟩ := pairwise_append.mp hsched
  obtain ⟨-, hbehind, hcross'⟩ := pairwise_append.mp hrest
  refine pairwise_append.mpr ⟨hbefore, pairwise_append.mpr ⟨hmid, hbehind, ?_⟩, ?_⟩
  · exact fun x hx y hy => hcross' x (hperm.mem_iff.mp hx) y hy
  · intro x hx y hy
    refine hcross x hx y (mem_append.mpr ((mem_append.mp hy).imp_left ?_))
    exact hperm.mem_iff.mp

/-- A group that is accepted is fused soundly. -/
theorem ParFused.sound (hwf : WellFormed specs g) (hstripped : StrippedUnread specs)
    (h : ParFused specs g names g' spec idx joined) :
    SiblingsSound specs g g' spec idx (parOp spec joined (opsAt g.ops idx)) := by
  have hops : ((opsAt g.ops idx).map asStage).map KernelOp.op =
      (opsAt g.ops idx).map KernelOp.op := by
    rw [map_map]
    rfl
  have hbinds : ∀ s ∈ (opsAt g.ops idx).map asStage, ∃ args, bindOp specs s = .ok args := by
    intro s hs
    obtain ⟨o, ho, rfl⟩ := mem_map.mp hs
    rw [bindOp_asStage hstripped]
    exact h.exists_bindOp hwf ho
  obtain ⟨stageArgs, hargs, hbinding⟩ := exists_parBinding hbinds (hops ▸ h.spec_eq)
  constructor
  case ops => exact h.ops_eq
  case others => exact h.perm_others
  case returned => rw [h.result]
  case inOrder => exact h.inOrder hwf
  case wellFormed => exact h.wellFormed hwf hstripped
  case kind => rfl
  case stages => rfl
  case run_eq => exact fun V K σ => h.run_eq K hwf hstripped σ
  case call =>
    refine ⟨stageArgs, bindFused_of_internal_nil rfl hargs, hbinding, hbinding.matchesSignature,
      fun houtputs V K => ⟨_, hbinding.seedProgram_eq K hwf.parameters ?_ houtputs, ?_⟩⟩
    · intro s hs
      obtain ⟨o, ho, rfl⟩ := mem_map.mp hs
      have hkind := h.notMem_aliasOps hwf ho
      exact hkind
    · intro prog' hperm σ
      apply h.run_any_order K hwf
      rw [map_map] at hperm
      rwa [map_congr_left fun o ho =>
        show (leafInstr K specs ∘ asStage) o = leafInstr K specs o from
          h.leafInstr_asStage K hwf hstripped ho] at hperm

/-- The groups that are found pass the test for independence, and those that are accepted are fused
soundly. -/
theorem siblings_sound (hwf : WellFormed specs g) (hstripped : StrippedUnread specs) :
    (∀ kinds m, ∃ groups, findSiblings specs kinds m g = .ok groups ∧
      ∀ names ∈ groups, Testable g names) ∧
    ∀ names g' spec, fuseSiblings specs g names = .ok (g', spec) →
      ∃ idx f, (∀ i, i ∈ idx ↔ ∃ name ∈ names, indexOf g name = .ok i) ∧
        idx.Pairwise (· < ·) ∧ SiblingsSound specs g g' spec idx f := by
  constructor
  · intro kinds m
    obtain ⟨groups, hgroups⟩ := exists_findSiblings hwf kinds m
    exact ⟨groups, hgroups, fun names hmem => testable_of_findSiblings hwf.names hgroups hmem⟩
  · intro names g' spec hfuse
    obtain ⟨idx, joined, h⟩ := exists_of_fuseSiblings hfuse
    exact ⟨idx, _, h.places, h.sorted, h.sound hwf hstripped⟩

end

/-! ### Three branches -/

/-- Three activations of one input, two of which are added. -/
def branches : KernelGraph where
  ops := [elementwise "a" "relu_f16" ["x"] "t", elementwise "c" "relu_f16" ["x"] "w",
    elementwise "b" "relu_f16" ["x"] "u", elementwise "d" "add_f16" ["t", "u"] "v"]
  outputs := ["v", "w"]

theorem wellFormed_branches : WellFormed elementwiseSpecs branches := by
  apply wellFormed_of_plain
  case hplain => simp [branches, elementwise_plain]
  case hnames => decide
  case horder => simp [branches, elementwise]
  case hself => simp [branches, elementwise]
  case hruns =>
    simp only [branches, forall_mem_cons]
    exact ⟨.inr (exists_of_isOk (by decide)),
      .inr (exists_of_isOk (by decide)), .inr (exists_of_isOk (by decide)),
      .inr (exists_of_isOk (by decide)), fun o ho => absurd ho not_mem_nil⟩
  case haliases => decide
  case hparameters => decide

theorem strippedUnread_elementwiseSpecs : StrippedUnread elementwiseSpecs := by
  have hall : ∀ e ∈ elementwiseSpecs.items, ∀ p ∈ e.2.params, p.name ∉ strippedFields := by decide
  intro kind params h
  rw [paramsOf] at h
  split at h
  next spec hspec =>
    cases h
    exact hall (kind, spec) (PyDict.mem_items_iff.mpr hspec)
  next => cases h

/-- The first and the last branch are fused, behind the one between them. -/
theorem siblings_sound_branches :
    (∃ groups, findSiblings elementwiseSpecs ["relu_f16"] 4 branches = .ok groups ∧
      ∀ names ∈ groups, Testable branches names) ∧
    ∃ g' spec, fuseSiblings elementwiseSpecs branches ["b", "a"] = .ok (g', spec) ∧
      ∃ idx f, SiblingsSound elementwiseSpecs branches g' spec idx f := by
  obtain ⟨hfound, hfused⟩ := siblings_sound wellFormed_branches strippedUnread_elementwiseSpecs
  refine ⟨hfound ["relu_f16"] 4, ?_⟩
  obtain ⟨⟨g', spec⟩, h⟩ := exists_of_isOk
    (show (fuseSiblings elementwiseSpecs branches ["b", "a"]).isOk = true by decide)
  obtain ⟨idx, f, -, -, hsound⟩ := hfused ["b", "a"] g' spec h
  exact ⟨g', spec, h, idx, f, hsound⟩

end ModelBlaster.KernelFusion

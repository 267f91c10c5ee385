import ModelBlaster.Composite.PlanSound

/-!
# Running a composite

Every call of a plan finds the buffers that it reads as the graph leaves them, and leaves those that
it writes as the graph does. What it does not write stays, as long as it is needed.

## Main definitions

* `Written`, `Needed`: the roots that hold their values in front of a call;
* `HoldsAll`: they do.

## Main results

* `PlanSteps.exists_run`: the composite runs, and leaves what the graph leaves;
* `planSound_iff_clear`: the calls of a plan compute the output of the new op as the graph does if
  and only if the new op is not fused, no part of a tensor of booleans is addressed at another
  offset, and no tensor gets in the way of a mask behind the horizon of the masks.
-/

namespace ModelBlaster.Composite

open KernelFusion List

section
variable {g : BaseGraph} {new : NewOp} {specs : Specs} {verified : List String}
  {p : CompositePlan} {al : Aliases} {lives : Lifetimes}
  {blocks : List (LinearScan.Block String)}

/-! ### Order -/

variable {o : KernelOp} {t : String}

theorem exists_index (ho : o ∈ g.kernelOps new) (ht : t ∈ outTensors (argsOf specs o)) :
    ∃ i, WritesAt g new specs i t := by
  obtain ⟨i, hi⟩ := getElem?_of_mem ho
  exact ⟨i, o, hi, ht⟩

variable {i : ℕ}

/-- What an absorbed op writes is its own root. -/
theorem rootOf_of_writesAt (hwf : WellFormed specs g) (h : WritesAt g new specs i t) :
    g.rootOf t = (t, 0) := by
  obtain ⟨o, ho, ht⟩ := h
  obtain ⟨hmem, hkernel⟩ := mem_kernels.mp (mem_kernels_of_absorbed (mem_of_getElem? ho))
  rw [← writtenBy_of_kernel hkernel] at ht
  exact hwf.rootOf_of_written hmem hkernel ht

/-- What is read has been written in front. -/
theorem lt_of_writesAt (hwf : WellFormed specs g) {j : ℕ} (hread : ReadsAt g new specs i t)
    (hwrite : WritesAt g new specs j (g.rootOf t).1) : j < i := by
  obtain ⟨o, ho, ht⟩ := hread
  obtain ⟨o', ho', hr⟩ := hwrite
  rcases Nat.lt_trichotomy i j with hlt | rfl | hgt
  · have hsub : (g.kernelOps new).Sublist g.kernels := kernelOps_sublist
    have hpairwise := hwf.pairwise_kernels.sublist hsub
    rw [pairwise_iff_getElem] at hpairwise
    obtain ⟨hi, rfl⟩ := List.getElem?_eq_some_iff.mp ho
    obtain ⟨hj, rfl⟩ := List.getElem?_eq_some_iff.mp ho'
    exact absurd hr (hpairwise i j hi hj hlt t ht)
  · obtain rfl := Option.some.inj (ho.symm.trans ho')
    exact absurd hr (hwf.root_notMem_self (mem_kernels_of_absorbed (mem_of_getElem? ho)) ht)
  · exact hgt

theorem TouchesAt.of_writesAt (hwf : WellFormed specs g) (h : WritesAt g new specs i t) :
    TouchesAt g new specs i t :=
  ⟨t, .inr h, by rw [rootOf_of_writesAt hwf h]⟩

variable {r : String}

theorem LiveAt.of_touchesAt (h : TouchesAt g new specs i r) :
    LiveAt g new specs i r :=
  .inr ⟨⟨i, le_refl i, h⟩, i, le_refl i, h⟩

theorem isBound_of_known {a : Arg} (ha : a ∈ newArgs specs new) (ht : pointee a.value = some t)
    (hknown : t ∈ g.tensors.keys) :
    IsBound g new specs (g.rootOf t).1 :=
  ⟨a, ha, t, Option.filter_eq_some_iff.mpr ⟨ht, decide_eq_true hknown⟩, rfl⟩

/-! ### Roots in front of a call -/

/-- The new op has the root as an input. -/
def IsInput (g : BaseGraph) (new : NewOp) (specs : Specs) (r : String) : Prop :=
  ∃ a ∈ newArgs specs new, ∃ u, a.value = .input u ∧ (g.rootOf u).1 = r

/-- A root has its value in front of a call: from the new op, from the filling of the masks, or from
an earlier call. -/
def Written (g : BaseGraph) (new : NewOp) (specs : Specs) (lives : Lifetimes) (k : ℕ)
    (r : String) : Prop :=
  (IsInput g new specs r ∧ IsBound g new specs r) ∨ r ∈ lives.masks.keys ∨
    ∃ j < k, WritesAt g new specs j r

/-- A root is needed behind a call. -/
def Needed (g : BaseGraph) (new : NewOp) (specs : Specs) (k : ℕ) (r : String) : Prop :=
  IsBound g new specs r ∨ (g.constOf r).isSome ∨ ∃ k', k ≤ k' ∧ TouchesAt g new specs k' r

/-- A root has a place while a call is made. -/
def Placed (g : BaseGraph) (new : NewOp) (specs : Specs) (lives : Lifetimes) (k : ℕ)
    (r : String) : Prop :=
  IsBound g new specs r ∨ r ∈ lives.first.keys ∧ LiveAt g new specs k r

variable (hwf : WellFormed specs g) (hsteps : PlanSteps g new specs verified p al lives blocks)
include hwf hsteps

omit hwf in
theorem PlanSteps.get?_place {b : LinearScan.Block String} (hb : b ∈ blocks) :
    (placeOf blocks).get? b.item.key = some b.start :=
  (get?_placeOf_iff hsteps.blocksOk).mpr ⟨b, hb, rfl, rfl⟩

variable {k : ℕ}

/-- Different roots that have a place are apart. -/
theorem PlanSteps.rootAddr_apart (hclear : PlanClear g new specs verified) {r' : String}
    (hne : r ≠ r') (hr : Placed g new specs lives k r) (hr' : Placed g new specs lives k r') :
    Apart (rootAddr (boundRoots g al (newArgs specs new)) blocks r) (g.bytes r)
      (rootAddr (boundRoots g al (newArgs specs new)) blocks r') (g.bytes r') := by
  unfold rootAddr
  by_cases hbound : r ∈ (boundRoots g al (newArgs specs new)).keys
  · by_cases hbound' : r' ∈ (boundRoots g al (newArgs specs new)).keys
    · rw [if_pos hbound, if_pos hbound']
      exact .inl fun heq => hne (Buffer.tensor.inj heq)
    · rw [if_pos hbound, if_neg hbound']
      exact .inl fun heq => by cases heq
  · by_cases hbound' : r' ∈ (boundRoots g al (newArgs specs new)).keys
    · rw [if_neg hbound, if_pos hbound']
      exact .inl fun heq => by cases heq
    · rw [if_neg hbound, if_neg hbound']
      rw [hsteps.isBound_iff hwf] at hbound hbound'
      obtain ⟨hfirst, hlive⟩ := hr.resolve_left hbound
      obtain ⟨hfirst', hlive'⟩ := hr'.resolve_left hbound'
      obtain ⟨b, hb, rfl⟩ := hsteps.exists_block hfirst
      obtain ⟨b', hb', rfl⟩ := hsteps.exists_block hfirst'
      rw [hsteps.get?_place hb, hsteps.get?_place hb']
      refine .inr ?_
      show ((b.start : ℤ) + _ ≤ b'.start) ∨ ((b'.start : ℤ) + _ ≤ b.start)
      exact_mod_cast hsteps.apart hwf hclear hb hb' hne hlive hlive'

theorem PlanSteps.placed_of_touchesAt (h : TouchesAt g new specs k r) :
    Placed g new specs lives k r := by
  by_cases hbound : IsBound g new specs r
  · exact .inl hbound
  · exact .inr ⟨hsteps.first_of_touches hwf h hbound, .of_touchesAt h⟩

/-- What has its value and is needed has a place. -/
theorem PlanSteps.placed_of_written (hw : Written g new specs lives k r)
    (hn : Needed g new specs k r) : Placed g new specs lives k r := by
  by_cases hbound : IsBound g new specs r
  · exact .inl hbound
  · rcases hw with ⟨-, hb⟩ | hmask | ⟨j, hj, hwrite⟩
    · exact absurd hb hbound
    · obtain ⟨hconst, hfirst⟩ := hsteps.lifeSpec.maskKeys r hmask
      exact .inr ⟨hfirst, .inl hconst⟩
    · have htouch := TouchesAt.of_writesAt hwf hwrite
      refine .inr ⟨hsteps.first_of_touches hwf htouch hbound, ?_⟩
      rcases hn with hb | hconst | hlater
      · exact absurd hb hbound
      · exact .inl hconst
      · exact .inr ⟨⟨j, hj.le, htouch⟩, hlater⟩

/-- What an absorbed op reads has its value. -/
theorem PlanSteps.written_of_readsAt (hreplaces : Replaces g new specs)
    (h : ReadsAt g new specs k t) : Written g new specs lives k (g.rootOf t).1 := by
  have hproduced : (∃ o ∈ g.kernelOps new, (g.rootOf t).1 ∈ outTensors (argsOf specs o)) →
      Written g new specs lives k (g.rootOf t).1 := by
    rintro ⟨o, ho, hout⟩
    obtain ⟨j, hj⟩ := exists_index ho hout
    exact .inr (.inr ⟨j, lt_of_writesAt hwf h hj, hj⟩)
  by_cases hbound : IsBound g new specs (g.rootOf t).1
  · obtain ⟨a, ha, u, hu, hroot⟩ := id hbound
    rcases pointee_iff.mp (Option.filter_eq_some_iff.mp hu).1 with hin | hout | hscratch
    · exact .inl ⟨⟨a, ha, u, hin, hroot⟩, hbound⟩
    · obtain ⟨-, hout⟩ := hreplaces.outputs a ha u hout
      exact hproduced (hroot ▸ hout)
    · obtain ⟨o, ho, ht⟩ := h
      refine hproduced (hroot ▸ hreplaces.scratch a ha u hscratch ?_)
      exact ⟨o, mem_of_getElem? ho, t, ht, hroot.symm⟩
  · rw [← hsteps.isBound_iff hwf] at hbound
    obtain ⟨o, ho, ht⟩ := id h
    obtain ⟨a, ha, hvalue⟩ := mem_inTensors.mp ht
    have hmem : (⟨k, o.name, a⟩ : Touch) ∈
        touches ((g.kernelOps new).map fun o => (o, argsOf specs o)) :=
      mem_touches.mpr ⟨(o, argsOf specs o), mem_stages.mpr ⟨ho, rfl⟩, rfl, ha⟩
    rw [← hsteps.root hwf] at hbound hproduced ⊢
    cases hconst : g.constOf (resolveTensor al t).1 with
    | some data =>
      have hspec := hsteps.lifeSpec.masks _ hmem (resolveTensor al t).1
        ⟨t, by rw [hvalue]; rfl, rfl⟩ hbound data hconst
      exact .inr (.inl hspec.2.2.2)
    | none =>
      obtain ⟨pre, post, hsplit⟩ := append_of_mem hmem
      obtain ⟨e, he, u, hu, hroot⟩ :=
        hsteps.lifeSpec.produced pre _ post hsplit t hvalue hbound hconst
      have he' : e ∈ touches ((g.kernelOps new).map fun o => (o, argsOf specs o)) := by
        rw [hsplit]
        exact mem_append_left _ he
      obtain ⟨stage, hget, -, harg⟩ := mem_touches.mp he'
      obtain ⟨ho', hargs⟩ := mem_stages.mp hget
      have hout : WritesAt g new specs e.index u :=
        ⟨stage.1, ho', mem_outTensors.mpr ⟨e.arg, hargs ▸ harg, hu⟩⟩
      refine hproduced ⟨stage.1, mem_of_getElem? ho', ?_⟩
      rw [← hroot, hsteps.root hwf, rootOf_of_writesAt hwf hout]
      exact mem_outTensors.mpr ⟨e.arg, hargs ▸ harg, hu⟩

/-! ### One call -/

/-- The roots that have their values and are needed hold them. -/
def HoldsAll (g : BaseGraph) (new : NewOp) (specs : Specs) (lives : Lifetimes)
    (roots : PyDict String RootParam) (blocks : List (LinearScan.Block String))
    (values : Contents) (k : ℕ) (m : Memory) : Prop :=
  ∀ r, Written g new specs lives k r → Needed g new specs k r →
    Holds m (rootAddr roots blocks r) (g.bytes r) (values r)

omit hwf hsteps in
theorem window_congr {f f' : ℤ → UInt8}
    (h : ∀ x, 0 ≤ g.byteOffset t + x → g.byteOffset t + x < g.bytes (g.rootOf t).1 → f x = f' x) :
    g.window t f = g.window t f' := by
  ext x
  unfold BaseGraph.window
  split
  case isTrue hx => rw [h x hx.1 hx.2]
  case isFalse => rfl

variable {K : Behaviour} {contents : Contents} {m : Memory}

/-- A call is given what the op is given in the graph. -/
theorem PlanSteps.operands_eq (hreplaces : Replaces g new specs)
    (ho : (g.kernelOps new)[k]? = some o)
    (hholds : HoldsAll g new specs lives (boundRoots g al (newArgs specs new)) blocks (baseValues K g specs contents) k m)
    :
    ((argsOf specs o).map (passedFor g (boundRoots g al (newArgs specs new)) blocks)).map
        (operandOf g m) =
      (argsOf specs o).map (baseOperand g (baseValues K g specs contents)) := by
  rw [map_map]
  apply map_congr_left
  intro a ha
  show operandOf g m (passedFor g _ blocks a) = _
  unfold passedFor baseOperand
  cases hvalue : a.value with
  | input t =>
    have hread : ReadsAt g new specs k t := ⟨o, ho, mem_inTensors.mpr ⟨a, ha, hvalue⟩⟩
    have hroot := hholds (g.rootOf t).1 (hsteps.written_of_readsAt hwf hreplaces hread)
      (.inr (.inr ⟨k, le_refl k, t, .inl hread, rfl⟩))
    show Operand.buffer _ = Operand.buffer _
    congr 1
    refine window_congr fun x hx hlt => ?_
    rw [← hroot _ hx hlt]
    show m (tensorAddr g _ blocks t).buffer _ = _
    unfold tensorAddr
    rw [add_assoc]
  | output t => rfl
  | scratch t => rfl
  | weight key => rfl
  | null => rfl
  | scalar v => rfl

omit hwf hsteps in
theorem outPointers_map {roots : PyDict String RootParam} (args : List Arg) :
    outPointers (args.map (passedFor g roots blocks)) =
      (outTensors args).map fun t => (t, tensorAddr g roots blocks t) := by
  unfold outPointers outTensors
  rw [filterMap_map, map_filterMap]
  apply filterMap_congr
  intro a _
  dsimp only [Function.comp_apply, passedFor]
  cases a.value <;> rfl

/-- What a call stores: for each tensor that the op writes, what the graph leaves there. -/
theorem PlanSteps.mem_callStores (hreplaces : Replaces g new specs)
    (ho : (g.kernelOps new)[k]? = some o)
    (hholds : HoldsAll g new specs lives (boundRoots g al (newArgs specs new)) blocks (baseValues K g specs contents) k m)
    (ht : t ∈ outTensors (argsOf specs o)) :
    ∃ s ∈ callStores K g o ((argsOf specs o).map
        (passedFor g (boundRoots g al (newArgs specs new)) blocks)) m,
      s.addr = rootAddr (boundRoots g al (newArgs specs new)) blocks t ∧ s.size = g.bytes t ∧
        ∀ x : ℤ, 0 ≤ x → x < g.bytes t → s.content x = baseValues K g specs contents t x := by
  have hmem := mem_kernels_of_absorbed (mem_of_getElem? ho)
  have hwrite : WritesAt g new specs k t := ⟨o, ho, ht⟩
  have hroot := rootOf_of_writesAt hwf hwrite
  have hget : (outTensors (argsOf specs o))[(outTensors (argsOf specs o)).idxOf t]? = some t := by
    rw [getElem?_eq_getElem (idxOf_lt_length_iff.mpr ht), getElem_idxOf]
  unfold callStores
  rw [outPointers_map, hsteps.operands_eq hwf hreplaces ho hholds]
  refine ⟨_, mem_map.mpr ⟨((t, tensorAddr g (boundRoots g al (newArgs specs new)) blocks t),
    (outTensors (argsOf specs o)).idxOf t), ?_, rfl⟩, ?_, rfl, fun x hx hlt => ?_⟩
  · rw [mem_zipIdx_iff_getElem?, getElem?_map, hget]
    rfl
  · show tensorAddr g _ blocks t = _
    unfold tensorAddr BaseGraph.byteOffset
    rw [hroot]
    simp
  · rw [hwf.baseValues_eq K contents hmem ht]
    unfold baseEffect clip
    rw [if_pos ht, if_pos ⟨hx, hlt⟩]

omit hsteps in
/-- The stores of a call are at the tensors that the op writes. -/
theorem exists_of_callStores (ho : (g.kernelOps new)[k]? = some o) {s : Store}
    (hs : s ∈ callStores K g o ((argsOf specs o).map (passedFor g (boundRoots g al (newArgs specs new)) blocks)) m)
    :
    ∃ t, WritesAt g new specs k t ∧
      s.addr = rootAddr (boundRoots g al (newArgs specs new)) blocks t ∧ s.size = g.bytes t := by
  unfold callStores at hs
  rw [outPointers_map] at hs
  obtain ⟨⟨⟨t, addr⟩, j⟩, hmem, rfl⟩ := mem_map.mp hs
  rw [mem_zipIdx_iff_getElem?, getElem?_map, Option.map_eq_some_iff] at hmem
  obtain ⟨u, hu, heq⟩ := hmem
  rw [Prod.mk.injEq] at heq
  obtain ⟨rfl, rfl⟩ := heq
  have hwrite : WritesAt g new specs k u := ⟨o, ho, mem_of_getElem? hu⟩
  refine ⟨u, hwrite, ?_, rfl⟩
  show tensorAddr g _ blocks u = _
  unfold tensorAddr BaseGraph.byteOffset
  rw [rootOf_of_writesAt hwf hwrite]
  simp

/-- The stores of a call are apart. -/
theorem PlanSteps.pairwise_callStores (hclear : PlanClear g new specs verified)
    (ho : (g.kernelOps new)[k]? = some o) :
    (callStores K g o ((argsOf specs o).map
      (passedFor g (boundRoots g al (newArgs specs new)) blocks)) m).Pairwise
        fun s s' => Apart s.addr s.size s'.addr s'.size := by
  obtain ⟨hmem, hkernel⟩ := mem_kernels.mp (mem_kernels_of_absorbed (mem_of_getElem? ho))
  have hnodup : (outTensors (argsOf specs o)).Nodup := by
    have hall := (nodup_flatMap.mp hwf.writers).1 o hmem
    rwa [writtenBy_of_kernel hkernel] at hall
  have haddr : ∀ t ∈ outTensors (argsOf specs o),
      tensorAddr g (boundRoots g al (newArgs specs new)) blocks t =
        rootAddr (boundRoots g al (newArgs specs new)) blocks t := by
    intro t ht
    unfold tensorAddr BaseGraph.byteOffset
    have hwrite : WritesAt g new specs k t := ⟨o, ho, ht⟩
    rw [rootOf_of_writesAt hwf hwrite]
    simp
  have hplaced : ∀ t ∈ outTensors (argsOf specs o), Placed g new specs lives k t := fun t ht =>
    hsteps.placed_of_touchesAt hwf (TouchesAt.of_writesAt hwf ⟨o, ho, ht⟩)
  unfold callStores
  rw [outPointers_map, zipIdx_map, map_map, pairwise_map]
  have hpairwise : ((outTensors (argsOf specs o)).zipIdx).Pairwise fun x y => x.1 ≠ y.1 := by
    have hmap : (((outTensors (argsOf specs o)).zipIdx).map Prod.fst).Pairwise (· ≠ ·) := by
      rw [zipIdx_map_fst]
      exact hnodup
    rwa [pairwise_map] at hmap
  refine hpairwise.imp_of_mem fun {x y} hx hy hne => ?_
  have hx' := fst_mem_of_mem_zipIdx hx
  have hy' := fst_mem_of_mem_zipIdx hy
  show Apart (tensorAddr g _ blocks x.1) (g.bytes x.1) (tensorAddr g _ blocks y.1) (g.bytes y.1)
  rw [haddr _ hx', haddr _ hy']
  exact hsteps.rootAddr_apart hwf hclear hne (hplaced _ hx') (hplaced _ hy')

/-- Behind a call the roots hold their values that have them then. -/
theorem PlanSteps.holdsAll_runCall (hclear : PlanClear g new specs verified)
    (hreplaces : Replaces g new specs) (ho : (g.kernelOps new)[k]? = some o)
    (hholds : HoldsAll g new specs lives (boundRoots g al (newArgs specs new)) blocks (baseValues K g specs contents) k m)
    :
    HoldsAll g new specs lives (boundRoots g al (newArgs specs new)) blocks
      (baseValues K g specs contents) (k + 1) (runCall K g o ((argsOf specs o).map
        (passedFor g (boundRoots g al (newArgs specs new)) blocks)) m) := by
  intro r hw hn
  by_cases hwrite : WritesAt g new specs k r
  · -- the call writes the root
    obtain ⟨o', ho', ht⟩ := id hwrite
    obtain rfl := Option.some.inj (ho.symm.trans ho')
    obtain ⟨s, hs, haddr, hsize, hcontent⟩ := hsteps.mem_callStores hwf hreplaces ho hholds ht
    have hstored := holds_writeAll_of_mem (m := m) (hsteps.pairwise_callStores hwf hclear ho) hs
    intro x hx hlt
    rw [← hcontent x hx hlt, ← haddr]
    exact hstored x hx (by rw [hsize]; exact hlt)
  · -- the call leaves the root alone
    have hw' : Written g new specs lives k r := by
      rcases hw with hin | hmask | ⟨j, hj, hwrite'⟩
      · exact .inl hin
      · exact .inr (.inl hmask)
      · rcases Nat.lt_succ_iff_lt_or_eq.mp hj with hlt | rfl
        · exact .inr (.inr ⟨j, hlt, hwrite'⟩)
        · exact absurd hwrite' hwrite
    have hn' : Needed g new specs k r := by
      rcases hn with hbound | hconst | ⟨k', hk', htouch⟩
      · exact .inl hbound
      · exact .inr (.inl hconst)
      · exact .inr (.inr ⟨k', by omega, htouch⟩)
    refine holds_writeAll_of_apart (hholds r hw' hn') fun s hs => ?_
    obtain ⟨t, ht, haddr, hsize⟩ := exists_of_callStores hwf ho hs
    rw [haddr, hsize]
    refine hsteps.rootAddr_apart hwf hclear ?_ (hsteps.placed_of_written hwf hw' hn')
      (hsteps.placed_of_touchesAt hwf (TouchesAt.of_writesAt hwf ht))
    rintro rfl
    exact hwrite ht

/-! ### Masks -/

/-- What is stored for a mask. -/
def maskStore (g : BaseGraph) (blocks : List (LinearScan.Block String)) (r : String) : Store :=
  match ((g.tensors.get? r).map fun info => info.shape.reverse).getD [] with
  | cols :: rows :: _ =>
    ⟨⟨.workspace, ((placeOf blocks).get? r).getD 0⟩, g.bytes r, maskByte rows cols⟩
  | _ => ⟨⟨.workspace, 0⟩, 0, fun _ => 0⟩

/-- A mask is a constant of the workspace that has been verified. -/
theorem PlanSteps.maskSpec (h : r ∈ lives.masks.keys) :
    ¬IsBound g new specs r ∧ ∃ data, g.constOf r = some data ∧ MaskSpec verified data := by
  obtain ⟨hconst, hfirst⟩ := hsteps.lifeSpec.maskKeys r h
  obtain ⟨f, hf⟩ := PyDict.mem_keys_iff.mp hfirst
  obtain ⟨hbound, e, he, htouch, -⟩ := hsteps.lifeSpec.firsts r f hf
  obtain ⟨data, hdata⟩ := Option.isSome_iff_exists.mp hconst
  refine ⟨fun hb => hbound ((hsteps.isBound_iff hwf).mpr hb), data, hdata, ?_⟩
  exact (hsteps.lifeSpec.masks e he r htouch hbound data hdata).1

omit hwf hsteps in
theorem constOf_eq_some {data : String × TensorInfo} (h : g.constOf r = some data) :
    g.tensors.get? r = some data.2 := by
  unfold BaseGraph.constOf at h
  obtain ⟨info, hinfo, h⟩ := Option.bind_eq_some_iff.mp h
  obtain ⟨c, -, rfl⟩ := Option.map_eq_some_iff.mp h
  exact hinfo

/-- The filling of a mask. -/
theorem PlanSteps.fillStore_eq (hr : r ∈ lives.masks.keys) {f : Fill}
    (h : fillOf g (placeOf blocks) r = .ok f) :
    fillStore f = maskStore g blocks r ∧ (placeOf blocks).get? r = some f.start := by
  obtain ⟨-, data, hdata, hspec⟩ := hsteps.maskSpec hwf hr
  have hinfo := constOf_eq_some hdata
  obtain ⟨info, hinfo', h⟩ := Fallible.bind_eq_ok_iff.mp h
  obtain rfl := Option.some.inj (hinfo.symm.trans (get?_of_info hinfo'))
  unfold maskStore
  rw [hinfo, Option.map_some, Option.getD_some]
  split at h
  case h_1 start cols rows rest hplace hshape =>
    rw [← Except.ok.inj h, hplace, hshape]
    have hbytes : g.bytes r = 2 * data.2.numel := by
      unfold BaseGraph.bytes
      rw [hinfo, Option.map_some, Option.getD_some, hspec.dtype, Nat.mul_comm]
      rfl
    refine ⟨?_, rfl⟩
    show Store.mk _ _ _ = Store.mk _ _ _
    rw [hbytes]
    rfl
  case h_2 => cases h
  case h_3 => cases h

theorem PlanSteps.map_fillStore :
    p.fills.map fillStore = lives.masks.keys.map (maskStore g blocks) := by
  have hall := Fallible.mapM_eq_ok_iff.mp hsteps.fills
  have hstore : ∀ r ∈ lives.masks.keys, ∀ f, fillOf g (placeOf blocks) r = .ok f →
      fillStore f = maskStore g blocks r := fun r hr f hf => (hsteps.fillStore_eq hwf hr hf).1
  generalize lives.masks.keys = rs at hall hstore ⊢
  generalize p.fills = fs at hall ⊢
  induction hall with
  | nil => rfl
  | @cons r f rs fs hrf _ ih =>
    rw [map_cons, map_cons, hstore r mem_cons_self f hrf,
      ih fun r' hr' => hstore r' (mem_cons_of_mem r hr')]

/-- A mask is stored in its place. -/
theorem PlanSteps.maskStore_eq (hr : r ∈ lives.masks.keys) :
    ∃ cols rows rest, ((g.tensors.get? r).map fun info => info.shape.reverse).getD [] =
      cols :: rows :: rest ∧ maskStore g blocks r =
        ⟨rootAddr (boundRoots g al (newArgs specs new)) blocks r, g.bytes r,
          maskByte rows cols⟩ := by
  obtain ⟨hbound, data, hdata, hspec⟩ := hsteps.maskSpec hwf hr
  rw [← hsteps.isBound_iff hwf] at hbound
  have hlen : 2 ≤ data.2.shape.reverse.length := by
    rw [length_reverse]
    exact hspec.dims
  unfold maskStore rootAddr
  rw [if_neg hbound, constOf_eq_some hdata, Option.map_some, Option.getD_some]
  match hshape : data.2.shape.reverse with
  | [] => simp [hshape] at hlen
  | [_] => simp [hshape] at hlen
  | cols :: rows :: rest => exact ⟨cols, rows, rest, rfl, rfl⟩

theorem PlanSteps.written_of_mask (hr : r ∈ lives.masks.keys) :
    Written g new specs lives 0 r ∧ Needed g new specs 0 r := by
  obtain ⟨-, data, hdata, -⟩ := hsteps.maskSpec hwf hr
  exact ⟨.inr (.inl hr), .inr (.inl (by rw [hdata]; rfl))⟩

/-- In front of the first call the inputs of the new op and the masks hold their values. -/
theorem PlanSteps.holdsAll_fills (hclear : PlanClear g new specs verified)
    (hmasks : MasksVerified g verified contents)
    (hinputs : InputsHeld g new specs (baseValues K g specs contents) m) :
    HoldsAll g new specs lives (boundRoots g al (newArgs specs new)) blocks
      (baseValues K g specs contents) 0 (writeAll m (p.fills.map fillStore)) := by
  rw [hsteps.map_fillStore hwf]
  have hplaced : ∀ r ∈ lives.masks.keys, Placed g new specs lives 0 r := fun r hr =>
    hsteps.placed_of_written hwf (hsteps.written_of_mask hwf hr).1 (hsteps.written_of_mask hwf hr).2
  intro r hw hn
  rcases hw with ⟨⟨a, ha, u, hu, rfl⟩, hbound⟩ | hmask | ⟨j, hj, -⟩
  · -- the inputs are apart from the workspace
    have hkey := (hsteps.isBound_iff hwf).mpr hbound
    have hheld := hinputs a ha u hu
    unfold rootAddr
    rw [if_pos hkey]
    refine holds_writeAll_of_apart hheld fun s hs => .inl ?_
    obtain ⟨r', hr', rfl⟩ := mem_map.mp hs
    obtain ⟨cols, rows, rest, -, heq⟩ := hsteps.maskStore_eq hwf hr'
    obtain ⟨hnot, -⟩ := hsteps.maskSpec hwf hr'
    rw [← hsteps.isBound_iff hwf] at hnot
    rw [heq]
    unfold rootAddr
    rw [if_neg hnot]
    exact fun hcontra => by cases hcontra
  · obtain ⟨cols, rows, rest, hshape, heq⟩ := hsteps.maskStore_eq hwf hmask
    obtain ⟨-, data, hdata, hspec⟩ := hsteps.maskSpec hwf hmask
    have hpairwise : (lives.masks.keys.map (maskStore g blocks)).Pairwise
        fun s s' => Apart s.addr s.size s'.addr s'.size := by
      rw [pairwise_map]
      refine lives.masks.keys_nodup.imp_of_mem fun {x y} hx hy hne => ?_
      obtain ⟨_, _, _, -, hxeq⟩ := hsteps.maskStore_eq hwf hx
      obtain ⟨_, _, _, -, hyeq⟩ := hsteps.maskStore_eq hwf hy
      rw [hxeq, hyeq]
      exact hsteps.rootAddr_apart hwf hclear hne (hplaced x hx) (hplaced y hy)
    have hstored := holds_writeAll_of_mem (m := m) hpairwise (mem_map_of_mem hmask)
    rw [heq] at hstored
    intro x hx hlt
    rw [hstored x hx hlt]
    -- no op writes the constant
    have hkeep : baseValues K g specs contents r = contents r := by
      refine baseValues_of_notMem fun o ho hmem => ?_
      obtain ⟨hops, hkernel⟩ := mem_kernels.mp ho
      refine hwf.consts r (by rw [hdata]; rfl) o hops ?_
      rwa [writtenBy_of_kernel hkernel]
    rw [constOf_eq_some hdata, Option.map_some, Option.getD_some] at hshape
    rw [hkeep, hmasks r data hdata hspec.verified cols rows rest hshape x hx hlt]
  · exact absurd hj (Nat.not_lt_zero j)

/-! ### The run -/

/-- The composite runs, and in the end all roots that are bound hold their values. -/
theorem PlanSteps.exists_run (hnames : EntryNames new specs)
    (hclear : PlanClear g new specs verified) (hreplaces : Replaces g new specs) {K : Behaviour}
    {contents : Contents} {m : Memory} (hmasks : MasksVerified g verified contents)
    (hinputs : InputsHeld g new specs (baseValues K g specs contents) m) :
    ∃ m', runComposite g specs (entryOf specs new) K p m = .ok m' ∧
      HoldsAll g new specs lives (boundRoots g al (newArgs specs new)) blocks
        (baseValues K g specs contents) p.calls.length m' := by
  refine Fallible.exists_foldlM_eq_ok (P := fun done m' =>
    HoldsAll g new specs lives (boundRoots g al (newArgs specs new)) blocks
      (baseValues K g specs contents) done.length m') ?_
    (hsteps.holdsAll_fills hwf hclear hmasks hinputs)
  intro done call rest m' hsplit hholds
  have hget : p.calls[done.length]? = some call := by
    rw [← hsplit, getElem?_append_right (le_refl _), Nat.sub_self]
    rfl
  obtain ⟨ho, -⟩ := hsteps.exists_of_call hget
  refine ⟨runCall K g call.1 ((argsOf specs call.1).map
    (passedFor g (boundRoots g al (newArgs specs new)) blocks)) m', ?_, ?_⟩
  · unfold runStage
    rw [hsteps.evalCall_eq hwf hnames hclear hget]
    rfl
  · rw [length_append, length_singleton]
    exact hsteps.holdsAll_runCall hwf hclear hreplaces ho hholds

end

/-! ## When composites compute what the graph computes -/

open Fallible

section
variable {g : BaseGraph} {new : NewOp} {specs : Specs} {verified : List String} {cap : ℕ}
  {p : CompositePlan} {al : Aliases} {lives : Lifetimes}
  {blocks : List (LinearScan.Block String)}

variable (hwf : WellFormed specs g) (hsteps : PlanSteps g new specs verified p al lives blocks)
include hwf hsteps

/-! ### Plans are sound if the condition holds -/

variable {t : String} {i : ℕ}

/-- What is at the address of a touched tensor is the tensor. -/
theorem PlanSteps.located (htouch : ReadsAt g new specs i t ∨ WritesAt g new specs i t) :
    Located g new specs p t (tensorAddr g (boundRoots g al (newArgs specs new)) blocks t) := by
  unfold tensorAddr rootAddr
  by_cases hbound : (g.rootOf t).1 ∈ (boundRoots g al (newArgs specs new)).keys
  · rw [if_pos hbound]
    exact .inl ⟨(hsteps.isBound_iff hwf).mp hbound, Addr.ext rfl (zero_add _)⟩
  · rw [if_neg hbound]
    rw [hsteps.isBound_iff hwf] at hbound
    have hfirst := hsteps.first_of_touches hwf ⟨t, htouch, rfl⟩ hbound
    obtain ⟨b, hb, hkey⟩ := hsteps.exists_block hfirst
    obtain ⟨n, hmem⟩ := hsteps.mem_workspace.mpr ⟨b, hb, rfl, rfl⟩
    refine .inr ⟨hbound, b.start, n, hkey ▸ hmem, ?_⟩
    rw [← hkey, hsteps.get?_place hb]
    rfl

theorem PlanSteps.passed_right {k : ℕ} {o : KernelOp} (ho : (g.kernelOps new)[k]? = some o)
    {a : Arg} (ha : a ∈ argsOf specs o) :
    (passedFor g (boundRoots g al (newArgs specs new)) blocks a).Right g new specs p := by
  have hlocated : ∀ t, pointee a.value = some t →
      Located g new specs p t (tensorAddr g (boundRoots g al (newArgs specs new)) blocks t) :=
    fun t ht => hsteps.located hwf (readsAt_or_writesAt.mpr ⟨o, ho, a, ha, ht⟩)
  unfold passedFor
  cases hvalue : a.value with
  | input t => exact hlocated t (by rw [hvalue]; rfl)
  | output t => exact hlocated t (by rw [hvalue]; rfl)
  | scratch t => exact hlocated t (by rw [hvalue]; rfl)
  | weight key => trivial
  | null => trivial
  | scalar v => trivial

theorem PlanSteps.addressed (hnames : EntryNames new specs)
    (hclear : PlanClear g new specs verified) {call : KernelOp × List CallArg} (h : call ∈ p.calls)
    :
    ∃ passed, evalCall g specs (entryOf specs new) call = .ok passed ∧
      ∀ x ∈ passed, x.Right g new specs p := by
  obtain ⟨k, hk⟩ := List.getElem?_of_mem h
  obtain ⟨ho, -⟩ := hsteps.exists_of_call hk
  refine ⟨_, hsteps.evalCall_eq hwf hnames hclear hk, fun x hx => ?_⟩
  obtain ⟨a, ha, rfl⟩ := List.mem_map.mp hx
  exact hsteps.passed_right hwf ho ha

omit hwf in
theorem PlanSteps.inside {r : String} {start n : ℕ} (h : (r, start, n) ∈ p.workspace) :
    start + g.bytes r ≤ p.wsBytes := by
  obtain ⟨b, hb, rfl, rfl⟩ := hsteps.mem_workspace.mp ⟨n, h⟩
  rw [hsteps.wsBytes]
  exact (hsteps.bytes_le hb).trans (LinearScan.stop_le_extent hb)

theorem PlanSteps.disjoint (hclear : PlanClear g new specs verified) {r r' : String}
    {start start' n n' : ℕ} (h : (r, start, n) ∈ p.workspace) (h' : (r', start', n') ∈ p.workspace)
    (hne : r ≠ r') (hlive : LiveAt g new specs i r) (hlive' : LiveAt g new specs i r') :
    start + g.bytes r ≤ start' ∨ start' + g.bytes r' ≤ start := by
  obtain ⟨b, hb, rfl, rfl⟩ := hsteps.mem_workspace.mp ⟨n, h⟩
  obtain ⟨b', hb', rfl, rfl⟩ := hsteps.mem_workspace.mp ⟨n', h'⟩
  exact hsteps.apart hwf hclear hb hb' hne hlive hlive'

theorem PlanSteps.initialised (hreplaces : Replaces g new specs) (h : ReadsAt g new specs i t) :
    (∃ a ∈ newArgs specs new, ∃ u, a.value = .input u ∧ (g.rootOf u).1 = (g.rootOf t).1) ∨
      (∃ f ∈ p.fills, ∃ n : ℕ, ((g.rootOf t).1, f.start, n) ∈ p.workspace) ∨
        ∃ j < i, WritesAt g new specs j (g.rootOf t).1 := by
  rcases hsteps.written_of_readsAt hwf hreplaces h with ⟨hinput, -⟩ | hmask | hwritten
  · exact .inl hinput
  · obtain ⟨f, hf, hfill⟩ := exists_of_mapM_eq_ok hsteps.fills hmask
    obtain ⟨-, hplace⟩ := hsteps.fillStore_eq hwf hmask hfill
    obtain ⟨b, hb, hkey, hstart⟩ := (get?_placeOf_iff hsteps.blocksOk).mp hplace
    exact .inr (.inl ⟨f, hf, hsteps.mem_workspace.mpr ⟨b, hb, hkey, hstart⟩⟩)
  · exact .inr (.inr hwritten)

omit hwf hsteps in
theorem confined_of_replaces (hreplaces : Replaces g new specs) (h : WritesAt g new specs i t)
    (hbound : IsBound g new specs t) :
    ∃ a ∈ newArgs specs new, ∃ u, written? a.value = some u ∧ (g.rootOf u).1 = t ∧
      g.byteOffset u ≤ 0 ∧ g.bytes t ≤ g.byteOffset u + g.bytes u := by
  obtain ⟨a, ha, u, hu, rfl⟩ := hbound
  obtain ⟨o, ho, ht⟩ := h
  rcases pointee_iff.mp (Option.filter_eq_some_iff.mp hu).1 with hin | hout | hscratch
  · exact absurd ht (hreplaces.inputs a ha u hin o (List.mem_of_getElem? ho))
  · have hw : written? a.value = some u := by rw [hout]; rfl
    exact ⟨a, ha, u, hw, rfl, hreplaces.whole a ha u hw⟩
  · have hw : written? a.value = some u := by rw [hscratch]; rfl
    exact ⟨a, ha, u, hw, rfl, hreplaces.whole a ha u hw⟩

section
variable (hnames : EntryNames new specs) (hclear : PlanClear g new specs verified)
  (hreplaces : Replaces g new specs)
include hnames hclear hreplaces

/-- In the end the outputs of the new op hold what the graph computes. -/
theorem PlanSteps.value {K : Behaviour} {contents : Contents} {m : Memory}
    (hmasks : MasksVerified g verified contents)
    (hinputs : InputsHeld g new specs (baseValues K g specs contents) m) :
    ∃ m', runComposite g specs (entryOf specs new) K p m = .ok m' ∧
      ∀ a ∈ newArgs specs new, ∀ t, a.value = .output t →
        Holds m' ⟨.tensor (g.rootOf t).1, 0⟩ (g.bytes (g.rootOf t).1)
          (baseValues K g specs contents (g.rootOf t).1) := by
  obtain ⟨m', hrun, hholds⟩ := hsteps.exists_run hwf hnames hclear hreplaces hmasks hinputs
  refine ⟨m', hrun, fun a ha t ht => ?_⟩
  obtain ⟨hknown, o, ho, hout⟩ := hreplaces.outputs a ha t ht
  obtain ⟨j, hj⟩ := exists_index ho hout
  have hbound : IsBound g new specs (g.rootOf t).1 := isBound_of_known ha (by rw [ht]; rfl) hknown
  have hlt : j < p.calls.length := by
    obtain ⟨o', ho', -⟩ := hj
    rw [length_of_mapM hsteps.calls, List.length_map]
    exact (List.getElem?_eq_some_iff.mp ho').1
  have hroot := hholds (g.rootOf t).1 (.inr (.inr ⟨j, hlt, hj⟩)) (.inl hbound)
  unfold rootAddr at hroot
  rwa [if_pos ((hsteps.isBound_iff hwf).mpr hbound)] at hroot

/-- Plans are sound if the condition holds. -/
theorem PlanSteps.planSound :
    PlanSound g new specs verified p where
  addressed _ h := hsteps.addressed hwf hnames hclear h
  inside _ _ _ h := hsteps.inside h
  disjoint _ _ _ _ _ _ _ h h' hne hlive hlive' := hsteps.disjoint hwf hclear h h' hne hlive hlive'
  initialised _ _ h := hsteps.initialised hwf hreplaces h
  confined _ _ h hbound := confined_of_replaces hreplaces h hbound
  value _ _ _ hmasks hinputs := hsteps.value hwf hnames hclear hreplaces hmasks hinputs

end

/-! ### The condition holds if plans are sound -/

omit hwf in
/-- In a plan that is sound, the pointer expression of a touched tensor has its address. -/
theorem PlanSteps.exists_located (hsound : PlanSound g new specs verified p)
    (htouch : ReadsAt g new specs i t ∨ WritesAt g new specs i t) : ∃ e addr,
      ptrExpr g al (boundRoots g al (newArgs specs new)) (placeOf blocks) t = .ok e ∧
        evalPtr g (entryOf specs new) e = .ok addr ∧ Located g new specs p t addr := by
  obtain ⟨o, ho, a, ha, ht⟩ := readsAt_or_writesAt.mp htouch
  have hstage : ((g.kernelOps new).map fun o => (o, argsOf specs o))[i]? =
      some (o, argsOf specs o) := mem_stages.mpr ⟨ho, rfl⟩
  obtain ⟨call, hget, hcall⟩ := getElem?_of_mapM hsteps.calls hstage
  obtain ⟨cargs, hcargs, hcall⟩ := bind_eq_ok_iff.mp hcall
  obtain rfl := Except.ok.inj hcall
  obtain ⟨passed, hpassed, hright⟩ := hsound.addressed _ (List.mem_of_getElem? hget)
  -- the argument, what is passed for it, and what this stands for
  obtain ⟨j, hj⟩ := List.getElem?_of_mem ha
  obtain ⟨c, hc, hcarg⟩ := getElem?_of_mapM hcargs hj
  have hzip : ((argsOf specs o).zip cargs)[j]? = some (a, c) :=
    List.getElem?_zip_eq_some.mpr ⟨hj, hc⟩
  obtain ⟨x, hx, heval⟩ := getElem?_of_mapM hpassed hzip
  have hxright := hright x (List.mem_of_getElem? hx)
  unfold callArg at hcarg
  unfold evalArg at heval
  rcases pointee_iff.mp ht with hvalue | hvalue | hvalue
  all_goals
    rw [hvalue] at hcarg
    obtain ⟨e, he, hcarg⟩ := bind_eq_ok_iff.mp hcarg
    rw [← Except.ok.inj hcarg] at heval
    obtain ⟨addr, haddr, heval⟩ := bind_eq_ok_iff.mp heval
    rw [hvalue] at heval
    rw [← Except.ok.inj heval] at hxright
    exact ⟨e, addr, he, haddr, hxright⟩

section
variable (hnames : EntryNames new specs)
include hnames

/-- In a plan that is sound, the new op is not fused. -/
theorem PlanSteps.plain_of_sound (hreplaces : Replaces g new specs)
    (hsound : PlanSound g new specs verified p) : new.op.subOps = [] := by
  by_contra hfused
  obtain ⟨a, ha, t, ht⟩ := hreplaces.produces
  obtain ⟨hknown, o, ho, hout⟩ := hreplaces.outputs a ha t ht
  obtain ⟨i, hwrite⟩ := exists_index ho hout
  obtain ⟨e, addr, he, haddr, -⟩ := hsteps.exists_located hsound (.inr hwrite)
  -- the pointer of the output is that of a parameter of a stage
  have hbound : IsBound g new specs (g.rootOf t).1 := isBound_of_known ha (by rw [ht]; rfl) hknown
  rw [← hsteps.isBound_iff hwf] at hbound
  obtain ⟨q, hq⟩ := PyDict.mem_keys_iff.mp hbound
  obtain ⟨info, -, he⟩ := bind_eq_ok_iff.mp he
  rw [hsteps.root hwf, rootOf_of_writesAt hwf hwrite, hq] at he
  obtain ⟨a', ha', ⟨u, hu, -⟩, hname⟩ := get?_boundRoots hq
  have hpointer : (pointee a'.value).isSome := by
    rw [(Option.filter_eq_some_iff.mp hu).1]
    rfl
  rw [← Except.ok.inj he] at haddr
  unfold evalPtr at haddr
  dsimp only at haddr
  rw [hname, entryPointer_eq_none (hnames.lettered hfused a' ha' hpointer)] at haddr
  cases haddr

/-- In a plan that is sound, no part of a tensor of booleans is addressed at another offset. -/
theorem PlanSteps.booleans_of_sound (hplain : new.op.subOps = [])
    (hsound : PlanSound g new specs verified p)
    (htouch : ReadsAt g new specs i t ∨ WritesAt g new specs i t)
    (hbool : g.dtypeOf (g.rootOf t).1 = .b8) :
    (g.rootOf t).2 = baseOffset g new specs (g.rootOf t).1 := by
  obtain ⟨e, addr, he, haddr, hlocated⟩ := hsteps.exists_located hsound htouch
  obtain ⟨info, hinfo, he⟩ := bind_eq_ok_iff.mp he
  have hdtype : info.dtype = .b8 := by
    rw [← dtypeOf_of_info hinfo, hsteps.root hwf]
    exact hbool
  have hbytes := hsteps.byteOffset_eq hwf hinfo
  rw [hsteps.root hwf] at he
  rw [hdtype] at he hbytes
  change g.byteOffset t = (g.rootOf t).2 * 1 at hbytes
  unfold baseOffset
  rw [← aliases_eq_ok hsteps.aliasesOk]
  split at he
  case h_1 q hq =>
    -- four bytes are counted from the pointer of the new op
    rw [hq]
    show (g.rootOf t).2 = q.offset
    obtain ⟨a, ha, ⟨u, hu, hroot⟩, hname⟩ := get?_boundRoots hq
    rw [hsteps.root hwf] at hroot
    have huinfo : g.info (resolveTensor al u).1 = .ok info := by
      rw [hsteps.root hwf, hroot, ← hsteps.root hwf t]
      exact hinfo
    have hubytes := hsteps.byteOffset_eq hwf huinfo
    rw [hroot, hdtype] at hubytes
    change g.byteOffset u = q.offset * 1 at hubytes
    have hentry := entryPointer_eq (g := g) hplain hsteps.boundNew (hnames.distinct hplain) ha
      (Option.filter_eq_some_iff.mp hu).1
    rw [← Except.ok.inj he] at haddr
    unfold evalPtr at haddr
    dsimp only at haddr
    rw [hname, hentry] at haddr
    rcases hlocated with ⟨-, heq⟩ | ⟨hnot, -⟩
    · rw [heq] at haddr
      have hoffset := congrArg Addr.offset (Except.ok.inj haddr)
      change g.byteOffset u + ((g.rootOf t).2 - q.offset) * 4 = g.byteOffset t at hoffset
      omega
    · exact absurd ((hsteps.isBound_iff hwf).mp (PyDict.mem_keys_of_get? hq)) hnot
  case h_2 start hnone hplace =>
    -- four bytes are counted from the place in the workspace
    rw [hnone]
    show (g.rootOf t).2 = 0
    rw [← Except.ok.inj he] at haddr
    rcases hlocated with ⟨hbound, -⟩ | ⟨-, start', n', hmem, heq⟩
    · exact absurd ((hsteps.isBound_iff hwf).mpr hbound) (PyDict.get?_eq_none_iff.mp hnone)
    · obtain ⟨n, hmem'⟩ :=
        hsteps.mem_workspace.mpr ((get?_placeOf_iff hsteps.blocksOk).mp hplace)
      obtain rfl := hsteps.start_eq hmem hmem'
      rw [heq] at haddr
      have hoffset := congrArg Addr.offset (Except.ok.inj haddr)
      change (start' : ℤ) + (g.rootOf t).2 * 4 = start' + g.byteOffset t at hoffset
      omega
  case h_3 => cases he

/-- In a plan that is sound, the condition holds. -/
theorem PlanSteps.planClear (hreplaces : Replaces g new specs)
    (hsound : PlanSound g new specs verified p) : PlanClear g new specs verified where
  plain := hsteps.plain_of_sound hwf hnames hreplaces hsound
  booleans _ _ htouch hbool := hsteps.booleans_of_sound hwf hnames
    (hsteps.plain_of_sound hwf hnames hreplaces hsound) hsound htouch hbool
  horizon blocks' hblocks b hb b' hb' hconst hconst' _ := by
    obtain rfl := Except.ok.inj (hsteps.firstFit_eq.symm.trans hblocks)
    obtain ⟨-, i, htouch⟩ := hsteps.touched_of_block hwf hb'
    obtain ⟨n, hmem⟩ := hsteps.mem_workspace.mpr ⟨b, hb, rfl, rfl⟩
    obtain ⟨n', hmem'⟩ := hsteps.mem_workspace.mpr ⟨b', hb', rfl, rfl⟩
    refine hsound.disjoint i _ _ n _ _ n' hmem hmem' ?_ (.inl hconst) (.of_touchesAt htouch)
    intro heq
    rw [heq, hconst'] at hconst
    cases hconst

end

end

/-- The calls of a plan compute the output of the new op as the graph does if and only if the new op
is not fused, no part of a tensor of booleans is addressed at another offset, and no tensor gets in
the way of a mask behind the horizon of the masks. -/
theorem planSound_iff_clear {g : BaseGraph} {new : NewOp} {specs : Specs} {verified : List String}
    {cap : ℕ} {p : CompositePlan} (hwf : WellFormed specs g) (hreplaces : Replaces g new specs)
    (hnames : EntryNames new specs) (h : plan g new specs verified cap = .ok p) :
    PlanSound g new specs verified p ↔ PlanClear g new specs verified := by
  obtain ⟨al, lives, blocks, hsteps⟩ := planSteps_of_plan h
  exact ⟨hsteps.planClear hwf hnames hreplaces, fun hclear => hsteps.planSound hwf hnames hclear
    hreplaces⟩

/-! ### A matrix product -/

section
variable {g : BaseGraph} {new : NewOp} {specs : Specs}

theorem constOf_eq_none (h : ∀ x ∈ g.tensors.items, x.2.const = none) (t : String) :
    g.constOf t = none := by
  unfold BaseGraph.constOf
  cases hget : g.tensors.get? t with
  | none => rfl
  | some info =>
    rw [Option.bind_some, h _ (PyDict.mem_items_iff.mpr hget)]
    rfl

theorem dtypeOf_ne_b8 (h : ∀ x ∈ g.tensors.items, x.2.dtype ≠ .b8) (t : String) :
    g.dtypeOf t ≠ .b8 := by
  unfold BaseGraph.dtypeOf
  cases hget : g.tensors.get? t with
  | none => decide
  | some info => exact h _ (PyDict.mem_items_iff.mpr hget)

/-- A graph without views and constants is well-formed, if its tensors are written once and in front
of their readers. -/
theorem wellFormed_of_noViews (hviews : ∀ o ∈ g.ops, o.op ≠ "view")
    (hconsts : ∀ x ∈ g.tensors.items, x.2.const = none)
    (hwriters : (g.ops.flatMap (writtenBy specs)).Nodup)
    (horder : g.ops.Pairwise fun o o' => ∀ t ∈ readBy specs o, t ∉ writtenBy specs o')
    (hself : ∀ o ∈ g.ops, ∀ t ∈ readBy specs o, t ∉ writtenBy specs o) : WellFormed specs g where
  writers := hwriters
  order := horder
  noSelf := hself
  views o ho hview := absurd hview (hviews o ho)
  consts t ht := by
    rw [constOf_eq_none hconsts] at ht
    cases ht

theorem replaces_of_written
    (hin : ∀ t ∈ inTensors (newArgs specs new), ∀ o ∈ g.kernelOps new,
      (g.rootOf t).1 ∉ outTensors (argsOf specs o))
    (hproduces : ∃ a ∈ newArgs specs new, a.value.output?.isSome)
    (hout : ∀ t ∈ outTensors (newArgs specs new), t ∈ g.tensors.keys ∧
      (∃ o ∈ g.kernelOps new, (g.rootOf t).1 ∈ outTensors (argsOf specs o)) ∧
        g.byteOffset t ≤ 0 ∧ g.bytes (g.rootOf t).1 ≤ g.byteOffset t + g.bytes t) :
    Replaces g new specs where
  inputs a ha t ht o ho := hin t (mem_inTensors.mpr ⟨a, ha, ht⟩) o ho
  produces := by
    obtain ⟨a, ha, hvalue⟩ := hproduces
    refine ⟨a, ha, ?_⟩
    cases hcase : a.value with
    | output t => exact ⟨t, rfl⟩
    | _ =>
      rw [hcase] at hvalue
      cases hvalue
  outputs a ha t ht := by
    obtain ⟨hkey, hwritten, -⟩ := hout t (mem_outTensors.mpr ⟨a, ha, .inl ht⟩)
    exact ⟨hkey, hwritten⟩
  scratch a ha t ht _ := (hout t (mem_outTensors.mpr ⟨a, ha, .inr ht⟩)).2.1
  whole a ha t ht := (hout t (List.mem_filterMap.mpr ⟨a, ha, ht⟩)).2.2

end

/-- The types of the parameters. -/
def constHalfPtr : CType := { base := "_Float16", const := true, ptr := true }

@[inherit_doc constHalfPtr]
def halfPtr : CType := { base := "_Float16", ptr := true }

@[inherit_doc constHalfPtr]
def cInt : CType := { base := "int" }

/-- Integer parameters. -/
def intParams (names : List String) : List Param := names.map fun name => ⟨cInt, name⟩

/-- The sizes and strides of a strided product of 64 by 64 matrices. -/
def bmmShape : List (String × ℤ) :=
  [("B0", 1), ("B1", 1), ("M", 64), ("K", 64), ("N", 64),
    ("a_off", 0), ("a_s0", 0), ("a_s1", 0), ("a_sm", 1), ("a_sk", 64),
    ("b_off", 0), ("b_s0", 0), ("b_s1", 0), ("b_sk", 64), ("b_sn", 1),
    ("c_off", 0), ("c_s0", 0), ("c_s1", 0), ("c_sm", 64), ("c_sn", 1)]

/-- The sizes and strides of a transposition. -/
def copyShape : List (String × ℤ) :=
  [("off", 0), ("d0", 1), ("d1", 1), ("d2", 1), ("d3", 1), ("d4", 64), ("d5", 64),
    ("s0", 0), ("s1", 0), ("s2", 0), ("s3", 0), ("s4", 1), ("s5", 64)]

/-- The letter of a stage in front of the names of parameters. -/
def lettered (letter : String) (params : List Param) : List Param :=
  params.map fun q => ⟨q.ctype, letter ++ q.name⟩

/-- The parameters of a strided product. -/
def bmmParams : List Param :=
  [⟨constHalfPtr, "A"⟩, ⟨constHalfPtr, "B"⟩, ⟨halfPtr, "C"⟩] ++ intParams (bmmShape.map Prod.fst)

/-- The parameters of a product with a number. -/
def mulScalarParams : List Param :=
  [⟨constHalfPtr, "input"⟩, ⟨halfPtr, "output"⟩, ⟨cInt, "n"⟩, ⟨⟨"float", false, false⟩, "s"⟩]

/-- The kernels of a product of matrices, with and without a number in a fused kernel. -/
def bmmSpecs : Specs where
  items := [
    ("strided_copy_f16", {
      op := "strided_copy_f16"
      params := [⟨constHalfPtr, "input"⟩, ⟨halfPtr, "output"⟩] ++
        intParams (copyShape.map Prod.fst) }),
    ("bmm_f16", {
      op := "bmm_f16"
      params := [⟨constHalfPtr, "A"⟩, ⟨constHalfPtr, "B"⟩, ⟨halfPtr, "C"⟩] ++
        intParams ["batch", "M", "K", "N"] }),
    ("bmm_strided_f16", { op := "bmm_strided_f16", params := bmmParams }),
    ("mul_scalar_f16", { op := "mul_scalar_f16", params := mulScalarParams }),
    ("fused__bmm_strided_f16__mul_scalar_f16", {
      op := "fused__bmm_strided_f16__mul_scalar_f16"
      params := lettered "a_" bmmParams ++
        lettered "b_" [⟨halfPtr, "output"⟩, ⟨cInt, "n"⟩, ⟨⟨"float", false, false⟩, "s"⟩]
      subOps := ["bmm_strided_f16", "mul_scalar_f16"]
      tParams := ["input"] })]
  nodup := by decide

/-- The value of `shape`. -/
def shapeOf (sizes : List (String × ℤ)) : PyDict String FieldValue :=
  PyDict.ofList (sizes.map fun size => (size.1, .atom (.int size.2)))

/-- The tensors, with 64 by 64 elements. -/
def squares (names : List String) : PyDict String TensorInfo :=
  PyDict.ofList (names.map fun t => (t, ⟨[64, 64], .f16, none⟩))

/-- A transposition, in front of a product. -/
def transposedProduct : BaseGraph where
  ops := [
    { name := "copy", op := "strided_copy_f16", inputs := ["x"], outputs := ["t"],
      shape := shapeOf copyShape },
    { name := "bmm", op := "bmm_f16", inputs := ["t", "w"], outputs := ["y"],
      shape := shapeOf [("batch", 1), ("M", 64), ("K", 64), ("N", 64)] }]
  tensors := squares ["x", "w", "t", "y"]

/-- The product with the transposition in its strides. -/
def foldedProduct : NewOp where
  op := { name := "bmm", op := "bmm_strided_f16", inputs := ["x", "w"], outputs := ["y"],
          shape := shapeOf bmmShape }
  folded := ["copy"]

/-- The transposition can be replaced. -/
theorem transposedProduct_spec : WellFormed bmmSpecs transposedProduct ∧
    Replaces transposedProduct foldedProduct bmmSpecs ∧ EntryNames foldedProduct bmmSpecs ∧
      PlanClear transposedProduct foldedProduct bmmSpecs [] := by
  have hwf : WellFormed bmmSpecs transposedProduct := by
    apply wellFormed_of_noViews
    case hviews => decide
    case hconsts => decide
    case hwriters => decide
    case horder => decide
    case hself => decide
  have hreplaces : Replaces transposedProduct foldedProduct bmmSpecs := by
    apply replaces_of_written
    case hin => decide
    case hproduces => decide
    case hout => decide
  have hnames : EntryNames foldedProduct bmmSpecs :=
    { distinct := fun _ => by decide
      lettered := fun hfused => absurd rfl hfused }
  refine ⟨hwf, hreplaces, hnames, ?_⟩
  exact
    { plain := rfl
      booleans := fun _ t _ hbool => absurd hbool (dtypeOf_ne_b8 (by decide) _)
      horizon := fun _ _ b _ _ _ hconst _ _ => by
        rw [constOf_eq_none (by decide)] at hconst
        cases hconst }

/-- The transposition goes to the workspace, and the product is what the graph computes. -/
theorem planSound_foldedProduct : ∃ p,
    plan transposedProduct foldedProduct bmmSpecs [] (2 ^ 30) = .ok p ∧
      p.stages = ["copy", "bmm"] ∧ p.workspace = [("t", 0, 8192)] ∧
        PlanSound transposedProduct foldedProduct bmmSpecs [] p := by
  have hrun : (plan transposedProduct foldedProduct bmmSpecs [] (2 ^ 30)).toOption.map
      (fun p => (p.stages, p.workspace)) = some (["copy", "bmm"], [("t", 0, 8192)]) := by
    decide
  cases hp : plan transposedProduct foldedProduct bmmSpecs [] (2 ^ 30) with
  | error e =>
    rw [hp] at hrun
    cases hrun
  | ok p =>
    rw [hp] at hrun
    have hpair := Prod.mk.inj (Option.some.inj hrun)
    obtain ⟨hwf, hreplaces, hnames, hclear⟩ := transposedProduct_spec
    exact ⟨p, rfl, hpair.1, hpair.2, (planSound_iff_clear hwf hreplaces hnames hp).mpr hclear⟩

/-- A product that is multiplied by a number. -/
def scaledProduct : BaseGraph where
  ops := [
    { name := "bmm", op := "bmm_strided_f16", inputs := ["x", "w"], outputs := ["t"],
      shape := shapeOf bmmShape },
    { name := "scale", op := "mul_scalar_f16", inputs := ["t"], outputs := ["y"],
      shape := ⟨[("n", .atom (.int 4096)), ("s", .atom (.float (1 / 8)))], by decide⟩ }]
  tensors := squares ["x", "w", "t", "y"]

/-- Both in one op. -/
def fusedProduct : NewOp where
  op := { name := "bmm+scale", op := "fused__bmm_strided_f16__mul_scalar_f16"
          inputs := ["x", "w"], outputs := ["y"], internal := ["t"], subOps := scaledProduct.ops }
  absorbed := ["bmm", "scale"]

/-- Both ops can be replaced. -/
theorem scaledProduct_spec : WellFormed bmmSpecs scaledProduct ∧
    Replaces scaledProduct fusedProduct bmmSpecs ∧ EntryNames fusedProduct bmmSpecs := by
  have hwf : WellFormed bmmSpecs scaledProduct := by
    apply wellFormed_of_noViews
    case hviews => decide
    case hconsts => decide
    case hwriters => decide
    case horder => decide
    case hself => decide
  have hreplaces : Replaces scaledProduct fusedProduct bmmSpecs := by
    apply replaces_of_written
    case hin => decide
    case hproduces => decide
    case hout => decide
  exact ⟨hwf, hreplaces, fun hplain => (by cases hplain), fun _ => by decide⟩

/-- The fused kernel has `a_A` for a parameter, and the plan has `A`. -/
theorem not_planSound_fusedProduct :
    (makeChainSpec bmmSpecs ["bmm_strided_f16", "mul_scalar_f16"] ["input"]).toOption =
        bmmSpecs.get? fusedProduct.op.op ∧
      WellFormed bmmSpecs scaledProduct ∧ Replaces scaledProduct fusedProduct bmmSpecs ∧
        EntryNames fusedProduct bmmSpecs ∧ ∃ p,
          plan scaledProduct fusedProduct bmmSpecs [] (2 ^ 30) = .ok p ∧
            ¬PlanSound scaledProduct fusedProduct bmmSpecs [] p := by
  obtain ⟨p, hp⟩ := exists_of_isOk
    (show (plan scaledProduct fusedProduct bmmSpecs [] (2 ^ 30)).isOk = true by decide)
  obtain ⟨hwf, hreplaces, hnames⟩ := scaledProduct_spec
  refine ⟨by decide, hwf, hreplaces, hnames, p, hp, fun hsound => ?_⟩
  obtain ⟨al, lives, blocks, hsteps⟩ := planSteps_of_plan hp
  cases hsteps.plain_of_sound hwf hnames hreplaces hsound

end ModelBlaster.Composite

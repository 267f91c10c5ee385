import ModelBlaster.Rewrite.LayoutWellFormed

/-!
# Runs of layout folding

`fold` goes through graphs until no fold is left. All of them are well-formed iff all folds are
clean. Where op names are unique and every copy, view and product has the inputs and outputs of its
kernel, a fold that is not clean leaves a read behind that no later fold mends, so that the returned
graph decides as well.

## Main definitions

* `FoldRun`: the graphs that the loop goes through;
* `Regular`: unique names, and kernels with their inputs and outputs.

## Main results

* `fold_wellFormed_iff`: when `fold` keeps a graph well-formed.
-/

namespace ModelBlaster.LayoutFold

open List Fallible

variable {draw : List ℕ → List (List ℕ)} {g : LayoutGraph}

/-! ### Runs -/

/-- The graphs that the loop goes through, the last of which it returns. -/
inductive FoldRun (draw : List ℕ → List (List ℕ)) (only : List String) :
    LayoutGraph → List LayoutGraph → Prop
  | stop {g : LayoutGraph} (h : foldStep draw g only = .ok none) : FoldRun draw only g [g]
  | step {g g' : LayoutGraph} {gs : List LayoutGraph} (h : foldStep draw g only = .ok (some g'))
    (hrun : FoldRun draw only g' gs) : FoldRun draw only g (g :: gs)

/-- Whether the fold that the next round does is clean. -/
def CleanAt (draw : List ℕ → List (List ℕ)) (only : List String) (g : LayoutGraph) : Prop :=
  ∀ f, pickFold draw g only = .ok (some f) → f.Clean

variable {only : List String} {g' last : LayoutGraph} {gs : List LayoutGraph} {ops : List LayoutOp}
  {t root : String}

theorem foldStep_eq_some (h : foldStep draw g only = .ok (some g')) :
    ∃ f, pickFold draw g only = .ok (some f) ∧ applyFold g f = .ok g' := by
  obtain ⟨r, hpick, h⟩ := bind_eq_ok_iff.mp h
  split at h
  · cases h
  · next f =>
    obtain ⟨g'', happly, h⟩ := bind_eq_ok_iff.mp h
    cases h
    exact ⟨f, hpick, happly⟩

theorem foldStep_eq_none (h : foldStep draw g only = .ok none) :
    pickFold draw g only = .ok none := by
  obtain ⟨r, hpick, h⟩ := bind_eq_ok_iff.mp h
  split at h
  · exact hpick
  · obtain ⟨g'', -, h⟩ := bind_eq_ok_iff.mp h
    cases h

theorem foldLoop_run {fuel : ℕ} {g : LayoutGraph} (h : foldLoop draw only fuel g = .ok g') :
    ∃ gs, FoldRun draw only g gs ∧ gs.getLast? = some g' := by
  induction fuel generalizing g with
  | zero => cases h
  | succ fuel ih =>
    obtain ⟨r, hstep, h⟩ := bind_eq_ok_iff.mp h
    split at h
    · cases h
      exact ⟨[_], .stop hstep, rfl⟩
    · obtain ⟨gs, hrun, hlast⟩ := ih h
      refine ⟨g :: gs, .step hstep hrun, ?_⟩
      rw [getLast?_cons, hlast]
      rfl

/-- All graphs of a run are well-formed iff all of its folds are clean. -/
theorem FoldRun.wellFormed_iff (hrun : FoldRun draw only g gs) (hwf : WellFormed g) :
    (∀ s ∈ gs, WellFormed s) ↔ ∀ s ∈ gs, CleanAt draw only s := by
  induction hrun with
  | stop h =>
    rw [forall_mem_singleton, forall_mem_singleton]
    refine iff_of_true hwf fun f hf => ?_
    rw [foldStep_eq_none h] at hf
    cases hf
  | @step g g' gs h hrun ih =>
    obtain ⟨f, hpick, happly⟩ := foldStep_eq_some h
    have hstep := (pickFold_spec hpick).wellFormed_iff hwf happly
    have hmem : g' ∈ gs := by cases hrun <;> exact mem_cons_self
    rw [forall_mem_cons, forall_mem_cons]
    constructor
    · rintro ⟨-, hall⟩
      refine ⟨fun f' hf' => ?_, (ih (hall g' hmem)).mp hall⟩
      rw [hpick] at hf'
      cases hf'
      exact hstep.mp (hall g' hmem)
    · rintro ⟨hclean, hall⟩
      exact ⟨hwf, (ih (hstep.mpr (hclean f hpick))).mpr hall⟩

/-! ### Reads that nothing mends -/

/-- Unique names; copies and views with one input, products with two and with one output, and
neither with stages. -/
structure Regular (g : LayoutGraph) : Prop where
  names : (g.ops.map fun o => o.name).Nodup
  moves : ∀ o ∈ g.ops, o.op ∈ moveOps → o.inputs.length = 1 ∧ o.stages = []
  products : ∀ o ∈ g.ops, (gemmOps.get? o.op).isSome → o.stages = []
  kernels : ∀ o ∈ g.ops, ∀ gm, gemmOf o = some gm → gm.inputs.length = 2 ∧ gm.outputs.length = 1

/-- Nothing provides a tensor. -/
def Gone (g : LayoutGraph) (t : String) : Prop :=
  g.isSource t = false ∧ ∀ o ∈ g.ops, t ∉ o.writes

/-- An op or a stage reads what nothing provides. -/
def Broken (g : LayoutGraph) : Prop := ∃ o ∈ g.ops, ∃ t ∈ o.reads, Gone g t

theorem WellFormed.not_broken (hwf : WellFormed g) : ¬Broken g := by
  rintro ⟨o, ho, t, ht, hsource, hwrites⟩
  rcases hwf.read ho ht with hs | ⟨p, hp, htp⟩
  · rw [hsource] at hs
    cases hs
  · exact hwrites p hp htp

/-- A chain up from a tensor that nothing provides goes nowhere. -/
theorem SourceChain.eq_of_gone (h : SourceChain g t root ops) (ht : Gone g t) : root = t := by
  cases h with
  | nil => rfl
  | cons hprod =>
    obtain ⟨ho, hout⟩ := producer_spec hprod
    exact absurd (LayoutOp.writes_of_outputs hout) (ht.2 _ ho)

theorem SourceChain.mem (h : SourceChain g t root ops) :
    ∀ d ∈ ops, d ∈ g.ops ∧ d.op ∈ moveOps ∧ ∃ src others, d.inputs = src :: others ∧
      (Gone g src → root = src) := by
  induction h with
  | nil => exact fun d hd => by cases hd
  | cons hprod hop hin _ _ hrest ih =>
    refine forall_mem_cons.mpr ⟨⟨(producer_spec hprod).1, hop, _, _, hin, ?_⟩, ih⟩
    exact fun hgone => hrest.eq_of_gone hgone

theorem SinkChain.mem {final : String} (h : SinkChain g t final ops)
    (ht : ∃ o ∈ g.ops, t ∈ o.writes) : (∃ o ∈ g.ops, final ∈ o.writes) ∧
      ∀ d ∈ ops, d ∈ g.ops ∧ d.op ∈ moveOps ∧ ∃ cur ∈ d.inputs, ∃ o ∈ g.ops, cur ∈ o.writes := by
  induction h with
  | nil => exact ⟨ht, fun d hd => by cases hd⟩
  | @cons t out final d ops others hsole hop hout hnot hrest ih =>
    obtain ⟨hd, hin⟩ := readers_spec hsole
    have hwrites : out ∈ d.outputs := by
      rw [hout]
      exact mem_cons_self
    obtain ⟨hfinal, hops⟩ := ih ⟨d, hd, LayoutOp.writes_of_outputs hwrites⟩
    exact ⟨hfinal, forall_mem_cons.mpr ⟨⟨hd, hop, t, hin, ht⟩, hops⟩⟩

section
variable {f : Fold} {o new : LayoutOp} {cFinal bTensor bRoot aTensor cTensor aRoot kind : String}
  {gm : Stage} {dead : List LayoutOp}

theorem Picked.mem_ops (hpicked : Picked g f) :
    o ∈ g.ops ↔ o = f.op ∨ o ∈ f.before ++ f.after := by
  rw [hpicked.1, mem_append, mem_cons, mem_append]
  tauto

theorem Fold.mem_left :
    o ∈ f.left ↔ o = f.new ∨ o ∈ f.before ++ f.after ∧ f.stays o = true := by
  simp only [Fold.left, mem_append, mem_cons, mem_filter]
  tauto

/-- A fold that is not clean leaves a read behind that nothing provides. -/
theorem Picked.broken (hwf : WellFormed g) (hreg : Regular g) (hpicked : Picked g f)
    {g' : LayoutGraph} (happly : applyFold g f = .ok g') (hclean : ¬f.Clean) : Broken g' := by
  by_contra hnot
  refine hclean ⟨fun o ho t ht htaken => hnot ⟨o, ?_, t, ht, ?_, ?_⟩, ?_⟩
  · rw [(applyFold_spec happly).1]
    exact ho
  · rw [hpicked.isSource_eq hwf happly]
    obtain ⟨hop | ⟨d, hd, -, htd⟩, -⟩ := Fold.mem_taken.mp htaken
    · exact hwf.sources f.op (hpicked.mem_ops.mpr (.inl rfl)) t hop
    · exact hwf.sources d (hpicked.mem_ops.mpr (.inr hd)) t htd
  · intro p hp htp
    rw [(applyFold_spec happly).1] at hp
    exact hpicked.writes_left hwf hp htp htaken
  · -- A product has no other output.
    intro s hs t ht hdropped
    have hop' : f.op ∈ g.ops := hpicked.mem_ops.mpr (.inl rfl)
    obtain ⟨-, gm, aTensor, bTensor, aRoot, bRoot, cTensor, cFinal, hspec⟩ := hpicked
    rcases hspec.cases with ⟨hop, -⟩ | ⟨hop, -, -, -, head, rest, hold, -⟩
    · rw [Fold.dropped, if_pos hop] at hdropped
      cases hdropped
    · have hlen := (hreg.kernels f.op hop' gm hspec.gemm).2
      obtain ⟨others, hgm⟩ := hspec.outputs
      rw [hgm, length_cons, Nat.succ_inj, length_eq_zero_iff] at hlen
      rw [Fold.dropped, if_neg (by simp [hop]), hold, head?_cons, Option.elim_some, hgm, hlen]
        at hdropped
      cases hdropped

/-- What the new op is called, and which inputs of a group it keeps. -/
theorem FoldSpec.keeps (h : FoldSpec g o new dead gm aTensor bTensor aRoot bRoot cTensor cFinal) :
    new.name = o.name ∧ ((gemmOps.get? o.op).isSome = false →
      ∀ t ∈ o.inputs, t = aTensor ∨ t = bTensor ∨ t ∈ new.inputs) := by
  obtain ⟨shape, folded, rfl⟩ := h.new
  rcases gemmOf_cases h.gemm with ⟨hop, hgm⟩ | ⟨hop, rest, hsub⟩
  · refine ⟨?_, fun hnot => ?_⟩
    · rw [rewritten, if_pos hop, hgm]
    · rw [hop] at hnot
      cases hnot
  · refine ⟨?_, fun _ t ht => ?_⟩
    · rw [rewritten, if_neg (by simp [hop])]
    · by_cases ha : t = aTensor
      · exact .inl ha
      · by_cases hb : t = bTensor
        · exact .inr (.inl hb)
        · refine .inr (.inr ?_)
          rw [rewritten, if_neg (by simp [hop])]
          refine PyList.mem_orderedUnique.mpr (mem_map.mpr ⟨t, ht, ?_⟩)
          rw [if_neg hb, if_neg ha]

/-- A read that nothing provides stays: the chains around a product do not lead past it. -/
theorem Broken.step (hbroken : Broken g) (hreg : Regular g) (hpicked : Picked g f)
    {g' : LayoutGraph} (happly : applyFold g f = .ok g') : Broken g' := by
  obtain ⟨o, ho, t, ht, hgone⟩ := hbroken
  obtain ⟨hops, hinputs, -, popped, htensors, -⟩ := applyFold_spec happly
  have hop : f.op ∈ g.ops := hpicked.mem_ops.mpr (.inl rfl)
  have hpicked' := hpicked
  obtain ⟨-, gm, aTensor, bTensor, aRoot, bRoot, cTensor, cFinal, hspec⟩ := hpicked
  obtain ⟨aOps, bOps, cOps, hdead, hsa, hsb, hc⟩ := hspec.dead
  have hresult : ∃ o ∈ g.ops, cTensor ∈ o.writes := ⟨f.op, hop, hspec.writes_result⟩
  have hroots : (aTensor = t → aRoot = t) ∧ (bTensor = t → bRoot = t) := by
    constructor
    · rintro rfl
      exact hsa.eq_of_gone hgone
    · rintro rfl
      exact hsb.eq_of_gone hgone
  have hgone' : Gone g' t := by
    constructor
    · have hsource := hgone.1
      simp only [LayoutGraph.isSource, Bool.or_eq_false_iff] at hsource ⊢
      rw [hinputs, htensors, PyDict.get?_foldl_pop]
      refine ⟨hsource.1, ?_⟩
      split_ifs
      · rfl
      · exact hsource.2
    · intro p hp htp
      rw [hops, Fold.mem_left] at hp
      rcases hp with rfl | ⟨hp, -⟩
      · rcases mem_append.mp htp with htp | htp
        · rcases hspec.cases with ⟨-, -, -, hout, -⟩ | ⟨-, -, -, hout, -⟩
          · -- The end of a chain behind the product is written.
            rw [hout, mem_singleton] at htp
            subst htp
            have hfinal : ∃ o ∈ g.ops, t ∈ o.writes := by
              rcases hc with ⟨rfl, -⟩ | ⟨-, hchain, -⟩
              · exact hresult
              · exact (hchain.mem hresult).1
            obtain ⟨q, hq, htq⟩ := hfinal
            exact hgone.2 q hq htq
          · rw [hout] at htp
            exact hgone.2 f.op hop (LayoutOp.writes_of_outputs htp)
        · exact hgone.2 f.op hop (hpicked'.stages_new htp)
      · exact hgone.2 p (hpicked'.mem_ops.mpr (.inr hp)) htp
  have hnew : f.new ∈ g'.ops := by
    rw [hops]
    exact Fold.mem_left.mpr (.inl rfl)
  -- Where an operand leads to the tensor, the new op reads it.
  have hreads : aRoot = t ∨ bRoot = t → Broken g' := by
    intro hroot
    refine ⟨f.new, hnew, t, ?_, hgone'⟩
    have hmem : t ∈ [aRoot, bRoot] := mem_pair.mpr (hroot.imp Eq.symm Eq.symm)
    rcases hspec.cases with ⟨-, -, hin, -⟩ | ⟨-, -, -, -, head, rest, -, hstages, hin, -⟩
    · exact mem_append_left _ (hin ▸ hmem)
    · refine mem_append_right _ (mem_flatMap.mpr ⟨head, ?_, hin ▸ hmem⟩)
      rw [hstages]
      exact mem_cons_self
  obtain ⟨others, hgmin⟩ := hspec.inputs
  have hothers : others = [] := by
    have hlen := (hreg.kernels f.op hop gm hspec.gemm).1
    rw [hgmin] at hlen
    simpa using hlen
  rw [hothers] at hgmin
  have hoperand : t ∈ gm.inputs → Broken g' := by
    intro hmem
    rw [hgmin] at hmem
    rcases mem_pair.mp hmem with rfl | rfl
    · exact hreads (.inl (hroots.1 rfl))
    · exact hreads (.inr (hroots.2 rfl))
  rcases hpicked'.mem_ops.mp ho with rfl | ho'
  · rcases hspec.cases with ⟨hgemm, hgm, -, -, -⟩ | ⟨hgemm, -, -, -, head, rest, hold, hstages, -⟩
    · rcases mem_append.mp ht with ht | ht
      · exact hoperand (hgm ▸ ht)
      · rw [hreg.products f.op hop hgemm] at ht
        cases ht
    · rcases mem_append.mp ht with ht | ht
      · rcases hspec.keeps.2 hgemm t ht with rfl | rfl | hmem
        · exact hreads (.inl (hroots.1 rfl))
        · exact hreads (.inr (hroots.2 rfl))
        · exact ⟨f.new, hnew, t, mem_append_left _ hmem, hgone'⟩
      · rw [hold, flatMap_cons, mem_append] at ht
        rcases ht with ht | ht
        · exact hoperand ht
        · refine ⟨f.new, hnew, t, mem_append_right _ ?_, hgone'⟩
          rw [hstages, flatMap_cons]
          exact mem_append_right _ ht
  · by_cases hstays : f.stays o = true
    · refine ⟨o, ?_, t, ht, hgone'⟩
      rw [hops]
      exact Fold.mem_left.mpr (.inr ⟨ho', hstays⟩)
    · -- An op that does not stay is one of the chain ops, as its name is unique.
      have hname : o.name ∈ f.dead.map fun d => d.name := by
        by_contra hnot
        exact hstays (decide_eq_true hnot)
      obtain ⟨d, hd, hdname⟩ := mem_map.mp hname
      have hsource : ∀ {t' root : String} {ops : List LayoutOp}, SourceChain g t' root ops →
          d ∈ ops → root = t := by
        intro t' root ops hchain hdmem
        obtain ⟨hdops, hdmove, src, othersIn, hin, hroot⟩ := hchain.mem d hdmem
        have heq : d = o := inj_on_of_nodup_map hreg.names hdops ho hdname
        subst heq
        obtain ⟨hlen, hnostages⟩ := hreg.moves d hdops hdmove
        rw [LayoutOp.reads, hnostages, flatMap_nil, append_nil, hin] at ht
        rw [hin, length_cons, Nat.succ_inj, length_eq_zero_iff] at hlen
        rw [hlen, mem_singleton] at ht
        subst ht
        exact hroot hgone
      rw [hdead] at hd
      rcases mem_append.mp hd with hd | hd
      · rcases mem_append.mp hd with hd | hd
        · exact hreads (.inl (hsource hsa hd))
        · exact hreads (.inr (hsource hsb hd))
      · rcases hc with ⟨-, hnil⟩ | ⟨-, hchain, -⟩
        · rw [hnil] at hd
          cases hd
        · -- A chain down reads what is written.
          obtain ⟨hdops, hdmove, cur, hcur, q, hq, hcurq⟩ := (hchain.mem hresult).2 d hd
          have heq : d = o := inj_on_of_nodup_map hreg.names hdops ho hdname
          subst heq
          obtain ⟨hlen, hnostages⟩ := hreg.moves d hdops hdmove
          obtain ⟨x, hx⟩ := length_eq_one_iff.mp hlen
          rw [LayoutOp.reads, hnostages, flatMap_nil, append_nil, hx, mem_singleton] at ht
          rw [hx, mem_singleton] at hcur
          rw [hcur, ← ht] at hcurq
          exact absurd hcurq (hgone.2 q hq)

theorem replaceFirst_length (old new : List Char) (s : List Char) :
    PyStr.replaceFirst old new s = s ∨
      new.length ≤ (PyStr.replaceFirst old new s).length := by
  induction s with
  | nil => exact .inl rfl
  | cons c cs ih =>
    rw [PyStr.replaceFirst]
    split_ifs
    · exact .inr (by simp)
    · rcases ih with heq | hlen
      · exact .inl (congrArg (c :: ·) heq)
      · exact .inr (hlen.trans (Nat.le_succ _))

/-- The kind of the new op: that of a strided product, that of the group, or a long one. -/
theorem FoldSpec.op_new (h : FoldSpec g o new dead gm aTensor bTensor aRoot bRoot cTensor cFinal) :
    ((gemmOps.get? o.op).isSome = true ∧ gemmOps.get? o.op = some new.op) ∨
      ((gemmOps.get? o.op).isSome = false ∧ (new.op = o.op ∨ 17 ≤ new.op.toList.length) ∧
        ∃ head rest, new.subOps = some (head :: rest) ∧ gemmOps.get? gm.op = some head.op) := by
  obtain ⟨shape, folded, rfl⟩ := h.new
  rcases gemmOf_cases h.gemm with ⟨hop, hgm⟩ | ⟨hop, rest, hsub⟩
  · left
    refine ⟨hop, ?_⟩
    obtain ⟨strided, hstrided⟩ := Option.isSome_iff_exists.mp hop
    rw [rewritten, if_pos hop, hgm, hstrided]
    rfl
  · right
    have hkind : (gemmOps.get? gm.op).isSome = true := by
      have hgemm := h.gemm
      rw [gemmOf, if_neg (by simp [hop]), hsub] at hgemm
      by_contra hnot
      simp only [if_neg hnot] at hgemm
      cases hgemm
    obtain ⟨strided, hstrided⟩ := Option.isSome_iff_exists.mp hkind
    refine ⟨hop, ?_, ?_⟩
    · rw [rewritten, if_neg (by simp [hop])]
      rcases replaceFirst_length ("fused__" ++ gm.op ++ "__").toList
        ("fused__" ++ (gemmOps.get? gm.op).getD gm.op ++ "__").toList o.op.toList with heq | hlen
      · left
        show String.ofList _ = _
        rw [heq, String.ofList_toList]
      · right
        show 17 ≤ (String.ofList _).toList.length
        rw [String.toList_ofList]
        refine le_trans ?_ hlen
        have hmem : strided ∈ ["bmm_strided", "bmm_strided_f16"] := by
          have hitem := (PyDict.mem_items_iff (d := gemmOps)).mpr hstrided
          rcases mem_pair.mp hitem with heq | heq <;> simp [(Prod.mk.inj heq).2]
        rw [hstrided, Option.getD_some]
        rcases mem_pair.mp hmem with rfl | rfl <;> decide
    · rw [rewritten, if_neg (by simp [hop]), hsub, hstrided]
      exact ⟨_, rest, rfl, rfl⟩

/-- A strided product is neither a copy nor a product. -/
theorem strided_spec {strided : String} (h : gemmOps.get? kind = some strided) :
    strided ∉ moveOps ∧ gemmOps.get? strided = none := by
  have hitem := PyDict.mem_items_iff.mpr h
  rcases mem_pair.mp hitem with heq | heq
  · rw [(Prod.mk.inj heq).2]
    decide
  · rw [(Prod.mk.inj heq).2]
    decide

/-- Nor is a kind with a long name. -/
theorem long_spec (hlen : 17 ≤ kind.toList.length) :
    kind ∉ moveOps ∧ gemmOps.get? kind = none := by
  have hshort : ∀ s ∈ moveOps ++ gemmOps.keys, s.toList.length < 17 := by decide
  have hnot : kind ∉ moveOps ++ gemmOps.keys := fun hmem => absurd (hshort kind hmem) (by omega)
  rw [mem_append, not_or] at hnot
  exact ⟨hnot.1, PyDict.get?_eq_none_iff.mpr hnot.2⟩

/-- The new op is neither a copy nor a product any more. -/
theorem Picked.kind_new (hreg : Regular g) (hpicked : Picked g f) :
    f.new.op ∉ moveOps ∧ gemmOps.get? f.new.op = none ∧ gemmOf f.new = none := by
  have hop : f.op ∈ g.ops := hpicked.mem_ops.mpr (.inl rfl)
  obtain ⟨-, gm, aTensor, bTensor, aRoot, bRoot, cTensor, cFinal, hspec⟩ := hpicked
  rcases hspec.op_new with ⟨hgemm, hnew⟩ | ⟨hgemm, hkind, head, rest, hsub, hhead⟩
  · obtain ⟨hmove, hnone⟩ := strided_spec hnew
    refine ⟨hmove, hnone, ?_⟩
    have hstages : f.new.stages = [] := by
      rcases hspec.cases with ⟨-, -, -, -, hstages⟩ | ⟨hnot, -⟩
      · rw [hstages, hreg.products f.op hop hgemm]
      · rw [hgemm] at hnot
        cases hnot
    rw [gemmOf, if_neg (by simp [hnone])]
    split
    · next head rest hsub =>
      rw [LayoutOp.stages, hsub] at hstages
      cases hstages
    · rfl
  · have hboth : f.new.op ∉ moveOps ∧ gemmOps.get? f.new.op = none := by
      rcases hkind with heq | hlen
      · rw [heq]
        refine ⟨fun hmove => ?_, by simpa using hgemm⟩
        rcases hspec.cases with ⟨hyes, -⟩ | ⟨-, -, -, -, head, rest, hold, -⟩
        · rw [hgemm] at hyes
          cases hyes
        · rw [(hreg.moves f.op hop hmove).2] at hold
          cases hold
      · exact long_spec hlen
    refine ⟨hboth.1, hboth.2, ?_⟩
    rw [gemmOf, if_neg (by simp [hboth.2]), hsub]
    simp only
    rw [if_neg (by simp [(strided_spec hhead).2])]

/-- A fold keeps a graph regular. -/
theorem Regular.step (hreg : Regular g) (hpicked : Picked g f) {g' : LayoutGraph}
    (happly : applyFold g f = .ok g') : Regular g' := by
  obtain ⟨hops, -⟩ := applyFold_spec happly
  obtain ⟨hmove, hgemm, hnone⟩ := hpicked.kind_new hreg
  have hold : ∀ {o : LayoutOp}, o ∈ g'.ops → o = f.new ∨ o ∈ g.ops := by
    intro o ho
    rw [hops, Fold.mem_left] at ho
    exact ho.imp_right fun h => hpicked.mem_ops.mpr (.inr h.1)
  constructor
  · have hnames := hreg.names
    have hname : f.new.name = f.op.name := by
      obtain ⟨-, gm, aTensor, bTensor, aRoot, bRoot, cTensor, cFinal, hspec⟩ := hpicked
      exact hspec.keeps.1
    rw [hpicked.1] at hnames
    rw [hops]
    refine List.Nodup.sublist ?_ hnames
    rw [Fold.left, map_append, map_append, map_cons, map_cons, hname]
    exact (filter_sublist.map _).append (List.Sublist.cons_cons _ (filter_sublist.map _))
  · intro o ho hmove'
    rcases hold ho with rfl | ho
    · exact absurd hmove' hmove
    · exact hreg.moves o ho hmove'
  · intro o ho hgemm'
    rcases hold ho with rfl | ho
    · rw [hgemm] at hgemm'
      cases hgemm'
    · exact hreg.products o ho hgemm'
  · intro o ho gm hgm
    rcases hold ho with rfl | ho
    · rw [hnone] at hgm
      cases hgm
    · exact hreg.kernels o ho gm hgm

end

/-- A read that nothing provides is there at the end of a run. -/
theorem FoldRun.broken (hrun : FoldRun draw only g gs) (hreg : Regular g) (hbroken : Broken g)
    (hlast : gs.getLast? = some last) : Broken last := by
  induction hrun with
  | stop =>
    cases hlast
    exact hbroken
  | @step g g' gs h hrun ih =>
    obtain ⟨f, hpick, happly⟩ := foldStep_eq_some h
    have hpicked := pickFold_spec hpick
    refine ih (hreg.step hpicked happly) (hbroken.step hreg hpicked happly) ?_
    rw [← hlast]
    cases hrun <;> rfl

/-- In a regular graph the end of a run decides: what is not clean is never mended. -/
theorem FoldRun.last_iff (hrun : FoldRun draw only g gs) (hwf : WellFormed g) (hreg : Regular g)
    (hlast : gs.getLast? = some last) :
    WellFormed last ↔ ∀ s ∈ gs, CleanAt draw only s := by
  constructor
  · intro hend
    induction hrun with
    | stop h =>
      rw [forall_mem_singleton]
      intro f hf
      rw [foldStep_eq_none h] at hf
      cases hf
    | @step g g' gs h hrun ih =>
      obtain ⟨f, hpick, happly⟩ := foldStep_eq_some h
      have hpicked := pickFold_spec hpick
      have hnext : gs.getLast? = some last := by
        rw [← hlast]
        cases hrun <;> rfl
      have hreg' := hreg.step hpicked happly
      have hclean : f.Clean := by
        by_contra hnot
        exact hend.not_broken (hrun.broken hreg' (hpicked.broken hwf hreg happly hnot) hnext)
      refine forall_mem_cons.mpr ⟨fun f' hf' => ?_, ?_⟩
      · rw [hpick] at hf'
        cases hf'
        exact hclean
      · exact ih (hpicked.wellFormed hwf happly hclean) hreg' hnext
  · intro hclean
    exact (hrun.wellFormed_iff hwf).mpr hclean last (mem_of_getLast? hlast)

/-! ### The pass -/

/-- All points of a box, among which the pass draws some. -/
def boxPoints : List ℕ → List (List ℕ)
  | [] => [[]]
  | d :: ds => (List.range d).flatMap fun i => (boxPoints ds).map (i :: ·)

/-- A copy that swaps the last two sizes of a cube, with 2 elements to a side. -/
def transposeShape : Shape :=
  PyDict.ofList [("off", 0), ("d0", 1), ("d1", 1), ("d2", 1), ("d3", 2), ("d4", 2), ("d5", 2),
    ("s0", 0), ("s1", 0), ("s2", 0), ("s3", 4), ("s4", 1), ("s5", 2)]

/-- A product of a transposed cube, in a group whose second stage reads `second`. -/
def transposedGroup (second : String) : LayoutGraph where
  inputs := ["x", "y"]
  outputs := ["z"]
  tensors := PyDict.ofList (["x", "y", "xt", "c", "z"].map fun t => (t, ⟨[2, 2, 2], false⟩))
  ops := [
    { name := "perm", op := "strided_copy", inputs := ["x"], outputs := ["xt"],
      shape := transposeShape },
    { name := "bmm_add", op := "fused__bmm__add", inputs := ["xt", "y"], outputs := ["z"],
      shape := PyDict.empty,
      subOps := some [
        ⟨"bmm", "bmm", ["xt", "y"], ["c"],
          PyDict.ofList [("batch", 2), ("M", 2), ("K", 2), ("N", 2)]⟩,
        ⟨"add", "add", ["c", second], ["z"], PyDict.ofList [("n", 8)]⟩] }]

end ModelBlaster.LayoutFold

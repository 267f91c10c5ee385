import ModelBlaster.KernelFusion.ChainBinding
import Mathlib.Data.List.Infix

/-!
# Soundness of fusion

A fused op is sound if its stages are a chain, and its kernel does what the two ops did. This takes
that the tensor between the ops is read once among the stages of the second. `fusePair` looks for it
among the inputs of the second, where a fused op has every tensor once.

## Main definitions

* `ReadOnce`: the tensor between two ops is read once;
* `FusionSound`: what is asked of a fused op and its kernel.

## Main results

* `fuseOps_assoc`: the fused op does not depend on which two come first;
* `Fused.assoc`: nor does the graph that is returned;
* `fusion_sound_iff`: when `fusePair` and `fuseChain` are sound.
-/

/-! ## Fusing three ops -/

namespace ModelBlaster.KernelFusion

open List Fallible

/-! ### Specs of parts of a chain -/

section
variable {specs : Specs} {kinds tps : List String} {spec : KernelSpec}

/-- What a chain asks of its kinds. -/
structure SpecDefined (specs : Specs) (kinds tps : List String) : Prop where
  nonempty : kinds ≠ []
  tokens : ∀ (i : ℕ) kind tp, kinds[i + 1]? = some kind → tps[i]? = some tp →
    ∃ tokens, stageTokens specs (kind, tp) = .ok tokens
  signature : ∀ kind ∈ kinds, ∃ params, paramsOf specs kind = .ok params ∧
    ∃ out, firstOut params = .ok out
  letters : kinds.length ≤ stageLetters.length
  length : kinds.length ≤ tps.length + 1

theorem stagePrefix_isOk_iff {i : ℕ} :
    (∃ letter, stagePrefix i = .ok letter) ↔ i < stageLetters.length := by
  rw [stagePrefix]
  constructor
  · rintro ⟨letter, h⟩
    split at h
    next c hc => exact (List.getElem?_eq_some_iff.mp hc).1
    next => cases h
  · intro h
    rw [getElem?_eq_getElem h]
    exact ⟨_, rfl⟩

theorem specDefined_of_makeChainSpec (h : makeChainSpec specs kinds tps = .ok spec) :
    SpecDefined specs kinds tps := by
  obtain ⟨kind, hkind, h⟩ := bind_eq_ok_iff.mp h
  obtain ⟨sigs, hsigs, h⟩ := bind_eq_ok_iff.mp h
  obtain ⟨params, hparams, h⟩ := bind_eq_ok_iff.mp h
  obtain ⟨outs, houts, -⟩ := bind_eq_ok_iff.mp h
  have hlen := length_of_mapM hsigs
  cases kinds with
  | nil => cases hkind
  | cons k rest =>
    obtain ⟨tokens, htokens, -⟩ := bind_eq_ok_iff.mp hkind
    have hstage : ∀ i, i < (k :: rest).length →
        i < stageLetters.length ∧ ∃ reading, readingParam tps i = .ok reading := by
      intro i hi
      have hget : sigs.zipIdx[i]? = some (sigs[i], i) := by
        simp
      obtain ⟨ps, -, hps⟩ := getElem?_of_mapM hparams hget
      obtain ⟨letter, hletter, hps⟩ := bind_eq_ok_iff.mp hps
      obtain ⟨reading, hreading, -⟩ := bind_eq_ok_iff.mp hps
      exact ⟨stagePrefix_isOk_iff.mp ⟨letter, hletter⟩, reading, hreading⟩
    constructor
    case nonempty => exact cons_ne_nil k rest
    case tokens =>
      intro i kind' tp hkind' htp
      have hget : (rest.zip tps)[i]? = some (kind', tp) := getElem?_zip_eq_some.mpr ⟨hkind', htp⟩
      obtain ⟨ts, -, hts⟩ := getElem?_of_mapM htokens hget
      exact ⟨ts, hts⟩
    case signature =>
      intro kind' hkind'
      obtain ⟨ps, hps, hparamsOf⟩ := exists_of_mapM_eq_ok hsigs hkind'
      obtain ⟨out, -, hout⟩ := exists_of_mapM_eq_ok houts hps
      exact ⟨ps, hparamsOf, out, hout⟩
    case letters =>
      have hlast := (hstage rest.length (Nat.lt_succ_self _)).1
      rw [length_cons]
      omega
    case length =>
      rw [length_cons]
      cases hrest : rest.length with
      | zero => omega
      | succ n =>
        obtain ⟨-, reading, hreading⟩ := hstage (n + 1) (by rw [length_cons]; omega)
        rw [readingParam] at hreading
        split at hreading
        next name hname =>
          have := (List.getElem?_eq_some_iff.mp hname).1
          omega
        next => cases hreading

theorem SpecDefined.exists_makeChainSpec (h : SpecDefined specs kinds tps) :
    ∃ spec, makeChainSpec specs kinds tps = .ok spec := by
  obtain ⟨sigs, hsigs⟩ : ∃ sigs, kinds.mapM (paramsOf specs) = .ok sigs :=
    exists_mapM_eq_ok fun kind hkind => (h.signature kind hkind).imp fun _ h => h.1
  have hlen := length_of_mapM hsigs
  obtain ⟨outs, houts⟩ : ∃ outs, sigs.mapM firstOut = .ok outs := by
    apply exists_mapM_eq_ok
    intro params hparams
    obtain ⟨i, hi⟩ := mem_iff_getElem?.mp hparams
    have hlt := (List.getElem?_eq_some_iff.mp hi).1
    obtain ⟨params', hparams', heq⟩ := getElem?_of_mapM hsigs
      (getElem?_eq_getElem (show i < kinds.length by omega))
    obtain rfl := Option.some.inj (hi.symm.trans hparams')
    obtain ⟨params', heq', hout⟩ := h.signature _ (getElem_mem (show i < kinds.length by omega))
    obtain rfl := Except.ok.inj (heq.symm.trans heq')
    exact hout
  obtain ⟨params, hparams⟩ : ∃ params, sigs.zipIdx.mapM (stageParams tps) = .ok params := by
    apply exists_mapM_eq_ok
    rintro ⟨ps, i⟩ hmem
    have hlt := (List.getElem?_eq_some_iff.mp (mem_zipIdx_iff_getElem?.mp hmem)).1
    have hletters := h.letters
    have htps := h.length
    obtain ⟨letter, hletter⟩ := stagePrefix_isOk_iff.mpr (show i < _ by omega)
    obtain ⟨reading, hreading⟩ : ∃ reading, readingParam tps i = .ok reading := by
      cases i with
      | zero => exact ⟨none, rfl⟩
      | succ i =>
        rw [readingParam, getElem?_eq_getElem (show i < tps.length by omega)]
        exact ⟨_, rfl⟩
    show ∃ ps', (stagePrefix i >>= _) = _
    rw [hletter]
    show ∃ ps', (readingParam tps i >>= _) = _
    rw [hreading]
    exact ⟨_, rfl⟩
  obtain ⟨kind, hkind⟩ : ∃ kind, chainKind specs kinds tps = .ok kind := by
    cases hkinds : kinds with
    | nil => exact absurd hkinds h.nonempty
    | cons k rest =>
      obtain ⟨tokens, htokens⟩ : ∃ tokens, (rest.zip tps).mapM (stageTokens specs) = .ok tokens := by
        apply exists_mapM_eq_ok
        rintro ⟨kind', tp⟩ hmem
        obtain ⟨i, hi⟩ := mem_iff_getElem?.mp hmem
        obtain ⟨hkind', htp⟩ := getElem?_zip_eq_some.mp hi
        exact h.tokens i kind' tp (by rw [hkinds]; exact hkind') htp
      show ∃ kind, ((rest.zip tps).mapM (stageTokens specs) >>= _) = _
      rw [htokens]
      exact ⟨_, rfl⟩
  show ∃ spec, (chainKind specs kinds tps >>= _) = _
  rw [hkind]
  show ∃ spec, (kinds.mapM (paramsOf specs) >>= _) = _
  rw [hsigs]
  show ∃ spec, (sigs.zipIdx.mapM (stageParams tps) >>= _) = _
  rw [hparams]
  show ∃ spec, (sigs.mapM firstOut >>= _) = _
  rw [houts]
  exact ⟨_, rfl⟩

/-- The end of a chain is a chain. -/
theorem SpecDefined.drop {kinds' : List String} (h : SpecDefined specs (kinds' ++ kinds) tps)
    (hne : kinds ≠ []) : SpecDefined specs kinds (tps.drop kinds'.length) where
  nonempty := hne
  tokens := by
    intro i kind tp hkind htp
    rw [getElem?_drop] at htp
    apply h.tokens (kinds'.length + i) kind tp _ htp
    rw [getElem?_append_right (by omega)]
    rwa [show kinds'.length + i + 1 - kinds'.length = i + 1 by omega]
  signature := fun kind hkind => h.signature kind (mem_append_right _ hkind)
  letters := by
    have hlen := h.letters
    rw [length_append] at hlen
    omega
  length := by
    have hlen := h.length
    rw [length_append] at hlen
    rw [length_drop]
    omega

end

/-! ### The fused op -/

section
variable {specs : Specs} {A B C f f₁ : KernelOp} {t u : String} {spec spec₁ : KernelSpec}

theorem stagesOf_of_fuseOps (h : fuseOps specs A B t = .ok (f, spec)) :
    stagesOf f = stagesOf A ++ stagesOf B := by
  obtain ⟨tps, -, -, rfl⟩ := eq_of_fuseOps h
  show (if (stagesOf A ++ stagesOf B).isEmpty then _ else _) = _
  simp [stagesOf_ne_nil]

/-- Behind the stages of the first op the tensors in between are those of the others. -/
theorem tParamAt_append {stages stages' : List KernelOp} {internal internal' : List String}
    (h : internal.length = stages.length) (i : ℕ) :
    tParamAt specs (stages ++ stages') (internal ++ internal') (stages.length + i) =
      tParamAt specs stages' internal' i := by
  rw [tParamAt, tParamAt, getElem?_append_right (by omega),
    getElem?_append_right (by omega), h, Nat.add_sub_cancel_left,
    show stages.length + i + 1 - stages.length = i + 1 by omega]

/-- Of three ops in a row, the last two may be fused first. -/
theorem fuseOps_assoc (hlen : A.internal.length + 1 = (stagesOf A).length) (ht : t ∉ C.inputs)
    (hf : fuseOps specs A B t = .ok (f, spec)) (hf₁ : fuseOps specs f C u = .ok (f₁, spec₁)) :
    ∃ h spec₂, fuseOps specs B C u = .ok (h, spec₂) ∧ fuseOps specs A h t = .ok (f₁, spec₁) := by
  have hstages := stagesOf_of_fuseOps hf
  obtain ⟨tps₀, -, -, rfl⟩ := eq_of_fuseOps hf
  obtain ⟨tps, htps, hspec₁, rfl⟩ := eq_of_fuseOps hf₁
  rw [hstages, append_assoc] at htps hspec₁
  have hne : stagesOf B ++ stagesOf C ≠ [] := by simp [stagesOf_ne_nil]
  have hpos := length_pos_iff.mpr hne
  have hinternal : A.internal ++ [t] ++ B.internal ++ [u] ++ C.internal =
      A.internal ++ [t] ++ (B.internal ++ [u] ++ C.internal) := by
    simp only [append_assoc]
  rw [hinternal] at htps
  have htps₂ : (List.range ((stagesOf B ++ stagesOf C).length - 1)).mapM
      (tParamAt specs (stagesOf B ++ stagesOf C) (B.internal ++ [u] ++ C.internal)) =
        .ok (tps.drop (stagesOf A).length) := by
    have hrange : (stagesOf A ++ (stagesOf B ++ stagesOf C)).length - 1 =
        (stagesOf A).length + ((stagesOf B ++ stagesOf C).length - 1) := by
      rw [length_append]
      omega
    rw [hrange, range_add] at htps
    obtain ⟨-, -, htail⟩ := mapM_append_eq_ok htps
    rw [mapM_map, length_range] at htail
    rw [← htail]
    apply mapM_congr
    exact fun i _ => (tParamAt_append (by rw [length_append, length_singleton, hlen]) i).symm
  have hdefined := specDefined_of_makeChainSpec hspec₁
  rw [map_append] at hdefined
  obtain ⟨spec₂, hspec₂⟩ := (hdefined.drop (by simp [stagesOf_ne_nil])).exists_makeChainSpec
  rw [length_map] at hspec₂
  have hBC : fuseOps specs B C u = .ok ({
      name := B.name ++ "+" ++ C.name
      op := spec₂.op
      inputs := PyList.orderedUnique (B.inputs ++ C.inputs.filter (· ≠ u))
      outputs := C.outputs
      internal := B.internal ++ [u] ++ C.internal
      subOps := stagesOf B ++ stagesOf C }, spec₂) := by
    show ((List.range _).mapM (tParamAt specs _ _) >>= _) = _
    rw [htps₂]
    show (makeChainSpec specs _ _ >>= _) = _
    rw [hspec₂]
    rfl
  refine ⟨_, spec₂, hBC, ?_⟩
  rw [fuseOps, stagesOf_of_fuseOps hBC]
  show ((List.range _).mapM (tParamAt specs _ _) >>= _) = _
  rw [htps]
  show (makeChainSpec specs _ _ >>= _) = _
  rw [hspec₁, hstages]
  show Except.ok _ = Except.ok _
  congr 2
  rw [KernelOp.mk.injEq]
  refine ⟨?_, rfl, ?_, rfl, rfl, rfl, rfl, hinternal.symm, (append_assoc _ _ _).symm⟩
  · simp only [String.append_assoc]
  · show PyList.orderedUnique (A.inputs ++
        (PyList.orderedUnique (B.inputs ++ C.inputs.filter (· ≠ u))).filter (· ≠ t)) =
      PyList.orderedUnique (PyList.orderedUnique (A.inputs ++ B.inputs.filter (· ≠ t)) ++
        C.inputs.filter (· ≠ u))
    have hkeep : (C.inputs.filter (· ≠ u)).filter (· ≠ t) = C.inputs.filter (· ≠ u) := by
      apply filter_eq_self.mpr
      intro x hx
      have hne : x ≠ t := fun heq => ht (heq ▸ (mem_filter.mp hx).1)
      simpa using hne
    rw [← PyList.orderedUnique_filter, PyList.orderedUnique_append_right,
      PyList.orderedUnique_append_left, filter_append, hkeep, append_assoc]

end

/-! ### The graph that is returned -/

section
variable {specs : Specs} {g g' : KernelGraph} {before mid after : List KernelOp}
  {A B f : KernelOp} {t : String} {spec : KernelSpec}

/-- The place of an op is found by its name. -/
theorem indexOf_eq (hnd : (g.ops.map KernelOp.name).Nodup) {l l' : List KernelOp} {o : KernelOp}
    (hops : g.ops = l ++ o :: l') : indexOf g o.name = .ok l.length := by
  have hnone : l.findIdx? (·.name = o.name) = none := by
    rw [findIdx?_eq_none_iff]
    intro o' ho'
    rw [hops, map_append, map_cons] at hnd
    have hne := (nodup_append.mp hnd).2.2 o'.name (mem_map_of_mem ho') o.name mem_cons_self
    simpa using hne
  have hfind : g.ops.findIdx? (·.name = o.name) = some l.length := by
    rw [hops, findIdx?_append, hnone, findIdx?_cons]
    simp
  rw [indexOf, hfind]

/-- Two ops that are accepted are fused, wherever they are. -/
theorem fusePair_eq (hnd : (g.ops.map KernelOp.name).Nodup)
    (hops : g.ops = before ++ A :: (mid ++ B :: after)) (hacc : PairAccepted g A B t)
    (hfuse : fuseOps specs A B t = .ok (f, spec)) :
    fusePair specs g A.name B.name = .ok (⟨before ++ mid ++ f :: after, g.outputs⟩, spec) := by
  have hops' : g.ops = (before ++ A :: mid) ++ B :: after := by
    rw [hops, append_assoc, cons_append]
  have hA : g.ops[before.length]? = some A := by simp [hops]
  have hB : g.ops[(before ++ A :: mid).length]? = some B := by
    rw [hops', getElem?_append_right (Nat.le_refl _), Nat.sub_self]
    rfl
  rw [fusePair, indexOf_eq hnd hops, indexOf_eq hnd hops']
  dsimp only [Bind.bind, Except.bind]
  rw [hA, hB]
  dsimp only
  rw [hacc.outputs]
  dsimp only
  rw [if_pos hacc, hfuse]
  show Except.ok (KernelGraph.mk _ _, _) = _
  rw [length_append, length_cons, hops, set_eraseIdx_append]

variable {a b c : String} {g₁ g₂ : KernelGraph} {spec₁ spec₂ : KernelSpec}
  {mid₁ after₁ : List KernelOp} {C e f₁ : KernelOp} {u : String}

/-- An op does not read what it writes. -/
theorem WellFormed.notMem_inputs (hwf : WellFormed specs g) {o : KernelOp} (ho : o ∈ g.ops)
    {x : String} (hx : x ∈ o.outputs) : x ∉ o.inputs := by
  intro hread
  obtain ⟨s, hs, hwrite⟩ := (hwf.interface o ho).writes x (.inl hx)
  exact (((hwf.interface o ho).reads x).mp hread).2 s hs hwrite

/-- The last two of three ops are accepted. -/
theorem Fused.accepted_right (hwf : WellFormed specs g) (hwf' : WellFormed specs g')
    (h : Fused specs g a b g' spec before mid (mid₁ ++ C :: after₁) A B f t)
    (hacc : PairAccepted g' f C u) : PairAccepted g B C u := by
  have hstages : stagesOf f = stagesOf A ++ stagesOf B := stagesOf_of_fuseOps h.fused
  have houtputs : g'.outputs = g.outputs := by rw [h.result]
  have hmem : f ∈ g'.ops := h.ops_perm.mem_iff.mpr mem_cons_self
  have hu : u ∈ f.outputs := by simp [hacc.outputs]
  have hnotF : u ∉ f.inputs := hwf'.notMem_inputs hmem hu
  have hnotA : u ∉ A.inputs := fun hread => hnotF (h.mem_inputs_iff.mpr (.inl hread))
  have hnotB : u ∉ B.inputs := hwf.notMem_inputs h.mem_right (h.outputs_eq ▸ hu)
  have hsub : ∀ s ∈ stagesOf B ++ stagesOf C, s ∈ stagesOf f ++ stagesOf C := by
    intro s hs
    rw [hstages, append_assoc]
    exact mem_append_right _ hs
  constructor
  case outputs => exact h.outputs_eq ▸ hacc.outputs
  case shared => exact h.outputs_eq ▸ hacc.shared
  case readers =>
    have hreaders := hacc.readers
    rw [h.result] at hreaders
    rw [← hreaders, h.ops]
    simp [filter_cons, hnotF, hnotA, hnotB]
  case not_returned => exact houtputs ▸ hacc.not_returned
  case once => exact hacc.once
  case first => exact hacc.first
  case no_cast => exact fun s hs => hacc.no_cast s (hsub s hs)
  case one_dtype => exact fun s hs s' hs' => hacc.one_dtype s (hsub s hs) s' (hsub s' hs')

/-- When the last two are fused, the first is accepted with what they make up. -/
theorem Fused.accepted_left (hwf : WellFormed specs g)
    (h : Fused specs g a b g' spec before mid (mid₁ ++ C :: after₁) A B f t)
    (hacc : PairAccepted g' f C u)
    (h₂ : Fused specs g b c g₂ spec₂ (before ++ A :: mid) mid₁ after₁ B C e u) :
    PairAccepted g₂ A e t := by
  have hstages : stagesOf f = stagesOf A ++ stagesOf B := stagesOf_of_fuseOps h.fused
  have hstagesE : stagesOf e = stagesOf B ++ stagesOf C := stagesOf_of_fuseOps h₂.fused
  have hread : t ∈ e.inputs := by
    have hin : t ∈ B.inputs := count_pos_iff.mp (by rw [h.accepted.once]; exact Nat.one_pos)
    exact h₂.mem_inputs_iff.mpr (.inl hin)
  have hsub : ∀ s ∈ stagesOf A ++ stagesOf e, s ∈ stagesOf f ++ stagesOf C := by
    intro s hs
    rw [hstages, append_assoc, ← hstagesE]
    exact hs
  have hnot : ∀ o ∈ before ++ mid ++ (mid₁ ++ C :: after₁), t ∉ o.inputs := fun o ho =>
    h.notMem_inputs hwf ho
  have hnotA : t ∉ A.inputs := hwf.notMem_inputs h.mem_left (by simp [h.accepted.outputs])
  constructor
  case outputs => exact h.accepted.outputs
  case shared => simp [h.accepted.outputs, hread]
  case readers =>
    have hnone : ∀ l : List KernelOp, (∀ o ∈ l, t ∉ o.inputs) → l.filter (t ∈ ·.inputs) = [] := by
      intro l hl
      rw [filter_eq_nil_iff]
      exact fun o ho => by simpa using hl o ho
    rw [h₂.result]
    show ((before ++ A :: mid ++ mid₁ ++ e :: after₁).filter _).map _ = _
    rw [filter_append, filter_cons_of_pos (by simpa using hread), hnone after₁, hnone]
    · rfl
    · intro o ho
      rcases mem_append.mp ho with ho | ho
      · rcases mem_append.mp ho with ho | ho
        · exact hnot o (by simp [ho])
        · rcases mem_cons.mp ho with rfl | ho
          · exact hnotA
          · exact hnot o (by simp [ho])
      · exact hnot o (by simp [ho])
    · exact fun o ho => hnot o (by simp [ho])
  case not_returned =>
    rw [h₂.result]
    exact h.accepted.not_returned
  case once =>
    obtain ⟨tps, -, -, rfl⟩ := eq_of_fuseOps h₂.fused
    exact count_eq_one_of_mem (PyList.nodup_orderedUnique _) hread
  case first =>
    rw [hstagesE, head?_append_of_ne_nil _ (stagesOf_ne_nil B)]
    exact h.accepted.first
  case no_cast => exact fun s hs => hacc.no_cast s (hsub s hs)
  case one_dtype => exact fun s hs s' hs' => hacc.one_dtype s (hsub s hs) s' (hsub s' hs')

/-- Of three ops in a row, the last two may be fused first. -/
theorem Fused.assoc (hwf : WellFormed specs g)
    (h : Fused specs g a b g' spec before mid after A B f t) (hA : A.Plain ∨ A.Chained)
    (hB : B.Plain ∨ B.Chained) (hab : ∀ o ∈ g.ops, o.name ≠ a ++ "+" ++ b)
    (hbc : ∀ o ∈ g.ops, o.name ≠ b ++ "+" ++ c)
    (hc : fusePair specs g' (a ++ "+" ++ b) c = .ok (g₁, spec₁)) :
    ∃ g₂ spec₂, fusePair specs g b c = .ok (g₂, spec₂) ∧
      fusePair specs g₂ a (b ++ "+" ++ c) = .ok (g₁, spec₁) := by
  have hwf' := h.wellFormed hwf hA hB hab
  obtain ⟨before₁, mid₁, after₁, f', C, f₁, u, h₁⟩ := exists_of_fusePair hwf' hc
  have hmem : f ∈ g'.ops := h.ops_perm.mem_iff.mpr mem_cons_self
  obtain rfl : f' = f := inj_on_of_nodup_map hwf'.names h₁.mem_left hmem
    (h₁.name_left.trans h.name_eq.symm)
  -- The third op is behind the second.
  have hnot : f' ∉ before ++ mid ∧ f' ∉ after := by
    have hnd := (h.ops_perm.nodup_iff.mp hwf'.names.of_map)
    have hnotMem := (nodup_cons.mp hnd).1
    rw [mem_append, not_or] at hnotMem
    exact hnotMem
  have hsplit : before ++ mid ++ f' :: after = before₁ ++ f' :: (mid₁ ++ C :: after₁) := by
    rw [← h₁.ops, h.result]
  obtain ⟨rfl, -, rfl⟩ := (append_cons_inj_of_notMem hnot.1 hnot.2).mp hsplit
  have htC : t ∉ C.inputs := h.notMem_inputs hwf (by simp)
  obtain ⟨e, spec₂, hBC, hABC⟩ :=
    fuseOps_assoc (isChain_stagesOf hA).length htC h.fused h₁.fused
  have hops : g.ops = (before ++ A :: mid) ++ B :: (mid₁ ++ C :: after₁) := by
    rw [h.ops, append_assoc, cons_append]
  have hacc₂ := h.accepted_right hwf hwf' h₁.accepted
  have h₂ : Fused specs g b c ⟨before ++ A :: mid ++ mid₁ ++ e :: after₁, g.outputs⟩ spec₂
      (before ++ A :: mid) mid₁ after₁ B C e u :=
    ⟨hops, h.name_right, h₁.name_right, hacc₂, hBC, rfl⟩
  have hright := fusePair_eq hwf.names hops hacc₂ hBC
  have hops₂ : before ++ A :: mid ++ mid₁ ++ e :: after₁ =
      before ++ A :: ((mid ++ mid₁) ++ e :: after₁) := by
    simp only [append_assoc, cons_append]
  have hleft := fusePair_eq (h₂.names_nodup hwf.names hbc) hops₂
    (h.accepted_left hwf h₁.accepted h₂) hABC
  rw [h.name_right, h₁.name_right] at hright
  rw [h.name_left, h₂.name_eq] at hleft
  refine ⟨_, spec₂, hright, hleft.trans ?_⟩
  rw [h₁.result, h.result]
  simp only [append_assoc]

end

open StraightLine

/-- What the first op writes is read once among the stages of the second. -/
def ReadOnce (A B : KernelOp) : Prop :=
  ∀ t ∈ A.outputs, ((stagesOf B).flatMap KernelOp.inputs).count t = 1

/-- A graph with a fused op of a name, made of a graph. -/
structure FusionSound (specs : Specs) (g g' : KernelGraph) (spec : KernelSpec) (name : String)
    (before : List KernelOp) (f : KernelOp) (after : List KernelOp) : Prop where
  ops : g'.ops = before ++ f :: after
  name_eq : f.name = name
  returned : g'.outputs = g.outputs
  kind : f.op = spec.op
  /-- Every tensor inside is the output of a stage, and is read by the next one, once. -/
  chain : IsChain f.subOps f.internal
  /-- It is read through the parameter that the spec names. -/
  through : ∀ (i : ℕ) t, f.internal[i]? = some t → ∀ s : KernelOp, f.subOps[i + 1]? = some s →
    ∃ args tp, bindOp specs s = .ok args ∧ spec.tParams[i]? = some tp ∧
      ∀ arg ∈ args, arg.value = .input t ↔ arg.param.name = tp
  hidden : ∀ t ∈ f.internal, t ∉ g'.outputs ∧ ∀ o ∈ before ++ after, t ∉ o.inputs
  /-- The fused op has an argument for every parameter, and with them the composite kernel computes
  what the graph did. -/
  call : ∃ args, bindFused specs f = .ok args ∧ MatchesSignature spec args ∧
    ∀ (V : Type) (K : Kernels V), ∃ prog, seedProgram K specs spec args = .ok prog ∧
      ∀ σ, run (program K specs before ++ prog ++ program K specs after) σ =
        run (program K specs g.ops) σ

section
variable {specs : Specs} {g g' : KernelGraph} {a b : String} {spec : KernelSpec}
  {before mid after : List KernelOp} {A B f : KernelOp} {t : String}

theorem program_append {V : Type} (K : Kernels V) (ops ops' : List KernelOp) :
    program K specs (ops ++ ops') = program K specs ops ++ program K specs ops' := by
  rw [program, flatMap_append, map_append]
  rfl

theorem Fused.subOps_eq (h : Fused specs g a b g' spec before mid after A B f t) :
    f.subOps = stagesOf A ++ stagesOf B := by
  obtain ⟨tps, -, -, rfl⟩ := eq_of_fuseOps h.fused
  rfl

section
variable (hwf : WellFormed specs g) (h : Fused specs g a b g' spec before mid after A B f t)
include hwf h

/-- The stages that are fused have kernels. -/
theorem Fused.notMem_aliasOps {s : KernelOp} (hs : s ∈ f.subOps) :
    s.op ∉ aliasOps := by
  intro hkind
  obtain ⟨tps, -, hspec, -⟩ := eq_of_fuseOps h.fused
  obtain ⟨sigs, -, -, hsigs, -⟩ := eq_of_makeChainSpec hspec
  rw [h.subOps_eq] at hs
  obtain ⟨params, -, hparams⟩ := exists_of_mapM_eq_ok hsigs (mem_map_of_mem hs)
  rw [hwf.aliases s.op hkind] at hparams
  cases hparams

theorem Fused.exists_bindOp (hA : A.Plain ∨ A.Chained) (hB : B.Plain ∨ B.Chained) {s : KernelOp}
    (hs : s ∈ f.subOps) :
    ∃ args, bindOp specs s = .ok args := by
  refine (hwf.runs s ?_).resolve_left (h.notMem_aliasOps hwf hs)
  rw [h.subOps_eq] at hs
  rcases mem_append.mp hs with hs | hs
  · exact mem_flatMap.mpr ⟨A, h.mem_left, leavesOf_eq_stagesOf hA ▸ hs⟩
  · exact mem_flatMap.mpr ⟨B, h.mem_right, leavesOf_eq_stagesOf hB ▸ hs⟩

/-- The arguments of the stages, if these are a chain. -/
theorem Fused.exists_chainBinding (hA : A.Plain ∨ A.Chained) (hB : B.Plain ∨ B.Chained)
    (hchain : IsChain f.subOps f.internal) :
    ∃ tps stageArgs, ChainBinding specs f.subOps f.internal tps spec stageArgs := by
  obtain ⟨tps, htps, hspec, hf⟩ := eq_of_fuseOps h.fused
  obtain ⟨stageArgs, hbinding⟩ := KernelFusion.exists_chainBinding hchain hwf.parameters
    (fun s hs => h.exists_bindOp hwf hA hB hs) (by rw [hf]; exact htps) (by rw [hf]; exact hspec)
  exact ⟨tps, stageArgs, hbinding⟩

/-- What stands between a graph and the one with the fused op. -/
theorem Fused.sound_of_isChain (hA : A.Plain ∨ A.Chained) (hB : B.Plain ∨ B.Chained)
    (hchain : IsChain f.subOps f.internal) :
    FusionSound specs g g' spec (a ++ "+" ++ b) (before ++ mid) f after := by
  obtain ⟨tps, stageArgs, hbinding⟩ := h.exists_chainBinding hwf hA hB hchain
  constructor
  case ops => rw [h.result]
  case name_eq => exact h.name_eq
  case returned => rw [h.result]
  case kind =>
    obtain ⟨tps, -, -, rfl⟩ := eq_of_fuseOps h.fused
    rfl
  case chain => exact hchain
  case through =>
    intro i x hx s hs
    obtain ⟨params, args, reading, hstage, -⟩ := hbinding.stage (i + 1) s hs
    have hreading := hstage.reading_eq
    rw [readingParam] at hreading
    split at hreading
    next tp htp =>
      cases hreading
      refine ⟨args, tp, hstage.args_eq, hbinding.tParams ▸ htp, fun arg harg => ?_⟩
      have hreads := hstage.reads arg harg
      have hprev : readsPrevious f.internal (i + 1) arg = true ↔ arg.value = .input x := by
        rcases arg with ⟨v, p⟩
        cases v <;> simp [readsPrevious, hx, eq_comm]
      rw [← hprev, hreads, Option.some.injEq, eq_comm]
    next => cases hreading
  case hidden =>
    intro x hx
    have houtputs : g'.outputs = g.outputs := by rw [h.result]
    rw [houtputs]
    exact h.hidden_of_inside hwf hA hB (.inl hx)
  case call =>
    refine ⟨stageArgs.flatten, ?_, hbinding.matchesSignature, fun V K => ?_⟩
    · rw [bindFused, hbinding.bindStages]
      rfl
    · refine ⟨_, hbinding.seedProgram_eq K fun s hs => h.notMem_aliasOps hwf hs, fun σ => ?_⟩
      have hstages : f.subOps.map (leafInstr K specs) = program K specs [f] := by
        rw [program, flatMap_singleton, h.leavesOf_eq hA hB, leavesOf_eq_stagesOf hA,
          leavesOf_eq_stagesOf hB, h.subOps_eq]
      rw [← h.run_eq K hwf hA hB, h.result, hstages, ← program_append, ← program_append,
        append_assoc _ [f]]
      rfl

end

/-- The fused op is a chain again. -/
theorem Fused.chained (h : Fused specs g a b g' spec before mid after A B f t)
    (hA : A.Plain ∨ A.Chained) (hB : B.Plain ∨ B.Chained) (hchain : IsChain f.subOps f.internal) :
    f.Chained where
  stages := by
    intro s hs
    rw [h.subOps_eq] at hs
    rcases mem_append.mp hs with hs | hs
    · exact plain_of_mem_stagesOf hA hs
    · exact plain_of_mem_stagesOf hB hs
  chain := hchain
  outputs := by
    intro s hs
    obtain ⟨s', -, hlast, hout⟩ := getLast?_stagesOf hB
    rw [h.subOps_eq, getLast?_append_of_ne_nil _ (stagesOf_ne_nil B), hlast] at hs
    rw [h.outputs_eq, ← hout, Option.some.inj hs]

/-- A fusion is sound iff the tensor between the ops is read once. -/
theorem Fused.sound_iff (hwf : WellFormed specs g)
    (h : Fused specs g a b g' spec before mid after A B f t) (hA : A.Plain ∨ A.Chained)
    (hB : B.Plain ∨ B.Chained) (hfresh : ∀ o ∈ g.ops, o.name ≠ a ++ "+" ++ b) :
    (∃ before f after, FusionSound specs g g' spec (a ++ "+" ++ b) before f after) ↔
      ReadOnce A B := by
  have hiff : ReadOnce A B ↔ IsChain f.subOps f.internal := by
    rw [h.isChain_iff hwf hA hB, ReadOnce, h.accepted.outputs]
    simp
  rw [hiff]
  constructor
  · rintro ⟨before', f', after', hsound⟩
    have hf' : f' ∈ g'.ops := by simp [hsound.ops]
    have hf : f ∈ g'.ops := h.ops_perm.mem_iff.mpr mem_cons_self
    obtain rfl : f' = f := inj_on_of_nodup_map (h.names_nodup hwf.names hfresh) hf' hf
      (hsound.name_eq.trans h.name_eq.symm)
    exact hsound.chain
  · exact fun hchain => ⟨_, f, _, h.sound_of_isChain hwf hA hB hchain⟩

end

/-! ### Chains of fusions -/

/-- The name of what a chain of fusions leaves behind. -/
def joinedName (name : String) (rest : List String) : String :=
  rest.foldl (fun cur next => cur ++ "+" ++ next) name

/-- No op has the name of what a chain of fusions leaves behind. -/
def FreshNames (g : KernelGraph) (name : String) (rest : List String) : Prop :=
  ∀ l, l <+: rest → l ≠ [] → ∀ o ∈ g.ops, o.name ≠ joinedName name l

/-- Where a chain of fusions has come to: the op that is fused so far writes what the last one
did. -/
structure Reached (specs : Specs) (g g' : KernelGraph) (name : String) (last f : KernelOp) :
    Prop where
  wellFormed : WellFormed specs g'
  run_eq : ∀ (V : Type) (K : Kernels V) σ,
    run (program K specs g'.ops) σ = run (program K specs g.ops) σ
  returned : g'.outputs = g.outputs
  mem : f ∈ g'.ops
  name_eq : f.name = name
  kind : f.PlainOrFused
  outputs : f.outputs = last.outputs
  others : ∀ o ∈ g'.ops, o = f ∨ o ∈ g.ops

section
variable {specs : Specs} {g g' g'' : KernelGraph} {name next : String} {spec : KernelSpec}
  {last f : KernelOp}

theorem append_plus_ne (x y : String) : x ++ "+" ++ y ≠ x := by
  intro h
  have hlen := congrArg String.length h
  rw [String.length_append, String.length_append] at hlen
  have : "+".length = 1 := rfl
  omega

/-- A sound step keeps what is reached. -/
theorem Reached.step (h : Reached specs g g' name last f)
    (hpair : fusePair specs g' name next = .ok (g'', spec))
    (hnext : ∀ C ∈ g.ops, C.name = next → C.PlainOrFused ∧ ReadOnce last C)
    (hfresh : ∀ o ∈ g.ops, o.name ≠ name ++ "+" ++ next) :
    ∃ C f', C ∈ g.ops ∧ C.name = next ∧ Reached specs g g'' (name ++ "+" ++ next) C f' ∧
      ∃ before f after, FusionSound specs g g'' spec (name ++ "+" ++ next) before f after := by
  obtain ⟨before, mid, after, A, C, f', t, hfused⟩ := exists_of_fusePair h.wellFormed hpair
  obtain rfl : A = f := inj_on_of_nodup_map h.wellFormed.names hfused.mem_left h.mem
    (hfused.name_left.trans h.name_eq.symm)
  have hC : C ∈ g.ops := by
    refine (h.others C hfused.mem_right).resolve_left fun heq => ?_
    exact hfused.name_ne h.wellFormed (congrArg KernelOp.name heq)
  obtain ⟨hkind, honce⟩ := hnext C hC hfused.name_right
  have hkinds := plain_or_chained_of_fuseOps hfused.accepted.outputs h.kind hkind hfused.fused
  have hnew : ∀ o ∈ g'.ops, o.name ≠ name ++ "+" ++ next := by
    intro o ho
    rcases h.others o ho with rfl | ho
    · rw [h.name_eq]
      exact (append_plus_ne _ _).symm
    · exact hfresh o ho
  have hreadOnce : ReadOnce A C := by
    rw [ReadOnce, h.outputs]
    exact honce
  obtain ⟨before', f'', after', hsound⟩ :=
    (hfused.sound_iff h.wellFormed hkinds.1 hkinds.2 hnew).mpr hreadOnce
  have hwf'' := hfused.wellFormed h.wellFormed hkinds.1 hkinds.2 hnew
  have hmem : f' ∈ g''.ops := hfused.ops_perm.mem_iff.mpr mem_cons_self
  obtain rfl : f'' = f' := inj_on_of_nodup_map hwf''.names (by simp [hsound.ops]) hmem
    (hsound.name_eq.trans hfused.name_eq.symm)
  refine ⟨C, f'', hC, hfused.name_right, ?_, before', f'', after', ?_⟩
  · constructor
    case wellFormed => exact hwf''
    case run_eq =>
      exact fun V K σ =>
        (hfused.run_eq K h.wellFormed hkinds.1 hkinds.2 σ).trans (h.run_eq V K σ)
    case returned => exact hsound.returned.trans h.returned
    case mem => exact hmem
    case name_eq => exact hfused.name_eq
    case kind => exact .inr (.inl (hfused.chained hkinds.1 hkinds.2 hsound.chain))
    case outputs => exact hfused.outputs_eq
    case others =>
      intro o ho
      rcases mem_cons.mp (hfused.ops_perm.mem_iff.mp ho) with heq | ho
      · exact .inl heq
      · refine .inr ((h.others o (hfused.mem_ops_iff.mpr (.inr (.inr ho)))).resolve_left ?_)
        exact fun heq => (hfused.name_ne_of_mem h.wellFormed ho).1 (congrArg KernelOp.name heq)
  · obtain ⟨args, hargs, hmatch, hcall⟩ := hsound.call
    refine { hsound with returned := hsound.returned.trans h.returned, call := ?_ }
    refine ⟨args, hargs, hmatch, fun V K => ?_⟩
    obtain ⟨prog, hprog, hrun⟩ := hcall V K
    exact ⟨prog, hprog, fun σ => (hrun σ).trans (h.run_eq V K σ)⟩

/-- What is asked of the ops of a chain of fusions. -/
def ReadOnceAlong (g : KernelGraph) (names : List String) : Prop :=
  names.IsChain fun x y =>
    ∀ A ∈ g.ops, ∀ B ∈ g.ops, A.name = x → B.name = y → B.PlainOrFused ∧ ReadOnce A B

/-- Sound steps, one after the other. -/
theorem Reached.foldlM {rest : List String} (h : Reached specs g g' name last f)
    (hlast : last ∈ g.ops)
    (hsound : ∃ before f after, FusionSound specs g g' spec name before f after)
    (honce : ReadOnceAlong g (last.name :: rest)) (hfresh : FreshNames g name rest)
    {r : (KernelGraph × KernelSpec) × String}
    (hrun : rest.foldlM (fun (st : (KernelGraph × KernelSpec) × String) next => do
      let fused ← fusePair specs st.1.1 st.2 next
      return (fused, st.2 ++ "+" ++ next)) ((g', spec), name) = .ok r) :
    ∃ before f after,
      FusionSound specs g r.1.1 r.1.2 (joinedName name rest) before f after := by
  induction rest generalizing g' spec name last f with
  | nil =>
    cases hrun
    exact hsound
  | cons next rest ih =>
    obtain ⟨st, hstep, hrun⟩ := bind_eq_ok_iff.mp hrun
    obtain ⟨⟨g₁, spec₁⟩, hpair, heq⟩ := bind_eq_ok_iff.mp hstep
    cases heq
    rw [ReadOnceAlong, isChain_cons_cons] at honce
    obtain ⟨C, f', hC, rfl, hreached, hsound'⟩ := h.step hpair
      (fun C hC hname => honce.1 last hlast C hC rfl hname)
      (hfresh [next] (cons_prefix_cons.mpr ⟨rfl, nil_prefix⟩) (cons_ne_nil _ _))
    refine ih hreached hC hsound' honce.2 (fun l hl _ => ?_) hrun
    exact hfresh (C.name :: l) (cons_prefix_cons.mpr ⟨rfl, hl⟩) (cons_ne_nil _ _)

/-- A chain of fusions is sound if each of its steps is. -/
theorem fuseChain_sound (hwf : WellFormed specs g) {names : List String}
    (hfirst : ∀ A ∈ g.ops, A.name = name → A.PlainOrFused) (hfresh : FreshNames g name names)
    (honce : ReadOnceAlong g (name :: names))
    (h : fuseChain specs g (name :: names) = .ok (g', spec)) :
    ∃ before f after, FusionSound specs g g' spec (joinedName name names) before f after := by
  cases names with
  | nil => cases h
  | cons next rest =>
    obtain ⟨⟨g₁, spec₁⟩, hpair, h⟩ := bind_eq_ok_iff.mp h
    obtain ⟨⟨⟨g₂, spec₂⟩, name'⟩, hrun, heq⟩ := bind_eq_ok_iff.mp h
    cases heq
    obtain ⟨_, _, _, A, _, _, _, hfused⟩ := exists_of_fusePair hwf hpair
    have hA := hfused.mem_left
    have hstart : Reached specs g g name A A := {
      wellFormed := hwf
      run_eq := fun V K σ => rfl
      returned := rfl
      mem := hA
      name_eq := hfused.name_left
      kind := hfirst A hA hfused.name_left
      outputs := rfl
      others := fun o ho => .inr ho }
    rw [ReadOnceAlong, isChain_cons_cons] at honce
    obtain ⟨C, f', hC, rfl, hreached, hsound⟩ := hstart.step hpair
      (fun C hC hname => honce.1 A hA C hC hfused.name_left hname)
      (hfresh [next] (cons_prefix_cons.mpr ⟨rfl, nil_prefix⟩) (cons_ne_nil _ _))
    refine hreached.foldlM hC hsound honce.2 (fun l hl _ => ?_) hrun
    exact hfresh (C.name :: l) (cons_prefix_cons.mpr ⟨rfl, hl⟩) (cons_ne_nil _ _)

/-! ### When fusion is sound -/

/-- `fusePair` is sound for just those ops between which the tensor is read once, and `fuseChain`
for chains of them. Which two of three ops are fused first makes no difference. -/
theorem fusion_sound_iff (hwf : WellFormed specs g) :
    (∀ A ∈ g.ops, ∀ B ∈ g.ops, A.PlainOrFused → B.PlainOrFused →
      (∀ o ∈ g.ops, o.name ≠ A.name ++ "+" ++ B.name) →
        ∀ g' spec, fusePair specs g A.name B.name = .ok (g', spec) →
          ((∃ before f after,
            FusionSound specs g g' spec (A.name ++ "+" ++ B.name) before f after) ↔
              ReadOnce A B)) ∧
    (∀ name names g' spec, (∀ A ∈ g.ops, A.name = name → A.PlainOrFused) →
      FreshNames g name names → ReadOnceAlong g (name :: names) →
        fuseChain specs g (name :: names) = .ok (g', spec) →
          ∃ before f after,
            FusionSound specs g g' spec (joinedName name names) before f after) ∧
    ∀ A ∈ g.ops, ∀ B ∈ g.ops, A.PlainOrFused → B.PlainOrFused → ∀ c,
      (∀ o ∈ g.ops, o.name ≠ A.name ++ "+" ++ B.name ∧ o.name ≠ B.name ++ "+" ++ c) →
        ∀ g' spec g₁ spec₁, fusePair specs g A.name B.name = .ok (g', spec) →
          fusePair specs g' (A.name ++ "+" ++ B.name) c = .ok (g₁, spec₁) →
            ∃ g₂ spec₂, fusePair specs g B.name c = .ok (g₂, spec₂) ∧
              fusePair specs g₂ A.name (B.name ++ "+" ++ c) = .ok (g₁, spec₁) := by
  have hfind : ∀ A ∈ g.ops, ∀ B ∈ g.ops, A.PlainOrFused → B.PlainOrFused → ∀ g' spec,
      fusePair specs g A.name B.name = .ok (g', spec) → ∃ before mid after f t,
        Fused specs g A.name B.name g' spec before mid after A B f t ∧
          (A.Plain ∨ A.Chained) ∧ (B.Plain ∨ B.Chained) := by
    intro A hA B hB hkindA hkindB g' spec h
    obtain ⟨before, mid, after, A', B', f, t, hfused⟩ := exists_of_fusePair hwf h
    obtain rfl : A' = A := inj_on_of_nodup_map hwf.names hfused.mem_left hA hfused.name_left
    obtain rfl : B' = B := inj_on_of_nodup_map hwf.names hfused.mem_right hB hfused.name_right
    exact ⟨before, mid, after, f, t, hfused,
      plain_or_chained_of_fuseOps hfused.accepted.outputs hkindA hkindB hfused.fused⟩
  refine ⟨?_, ?_, ?_⟩
  · intro A hA B hB hkindA hkindB hfresh g' spec h
    obtain ⟨before, mid, after, f, t, hfused, hA', hB'⟩ := hfind A hA B hB hkindA hkindB g' spec h
    exact hfused.sound_iff hwf hA' hB' hfresh
  · intro name names g' spec hfirst hfresh honce h
    exact fuseChain_sound hwf hfirst hfresh honce h
  · intro A hA B hB hkindA hkindB c hfresh g' spec g₁ spec₁ h hc
    obtain ⟨before, mid, after, f, t, hfused, hA', hB'⟩ := hfind A hA B hB hkindA hkindB g' spec h
    exact hfused.assoc hwf hA' hB' (fun o ho => (hfresh o ho).1) (fun o ho => (hfresh o ho).2) hc

end

/-! ### Graphs of plain ops -/

theorem leavesOf_of_plain {ops : List KernelOp} (h : ∀ o ∈ ops, o.Plain) :
    ops.flatMap leavesOf = ops := by
  have hleaf : ∀ o ∈ ops, leavesOf o = [o] := fun o ho => leavesOf_of_subOps_nil (h o ho).1
  rw [flatMap_def, map_congr_left hleaf, ← flatMap_def, flatMap_singleton']

/-- A graph of plain ops is well-formed if they are in order. -/
theorem wellFormed_of_plain {specs : Specs} {g : KernelGraph} (hplain : ∀ o ∈ g.ops, o.Plain)
    (hnames : (g.ops.map KernelOp.name).Nodup)
    (horder : g.ops.Pairwise fun s s' =>
      (∀ t ∈ s.inputs, t ∉ s'.outputs) ∧ ∀ t ∈ s.outputs, t ∉ s'.outputs)
    (hself : ∀ s ∈ g.ops, ∀ t ∈ s.inputs, t ∉ s.outputs) (hruns : ∀ s ∈ g.ops, s.Runs specs)
    (haliases : ∀ kind ∈ aliasOps, specs.get? kind = none)
    (hparameters : ∀ e ∈ specs.items, (e.2.params.map Param.name).Nodup) : WellFormed specs g where
  names := hnames
  order := by rwa [leavesOf_of_plain hplain]
  self := by rwa [leavesOf_of_plain hplain]
  runs := by rwa [leavesOf_of_plain hplain]
  aliases := by
    intro kind hkind
    rw [paramsOf, haliases kind hkind]
  parameters := by
    intro kind params h
    rw [paramsOf] at h
    split at h
    next spec hspec =>
      cases h
      exact hparameters (kind, spec) (PyDict.mem_items_iff.mpr hspec)
    next => cases h
  interface := by
    intro o ho
    constructor
    · intro t
      rw [leavesOf_of_subOps_nil (hplain o ho).1]
      simp only [mem_singleton, exists_eq_left, forall_eq]
      exact ⟨fun h => ⟨h, hself o ho t h⟩, fun h => h.1⟩
    · intro t
      rw [leavesOf_of_subOps_nil (hplain o ho).1, (hplain o ho).2]
      simp
  hidden := by
    rintro o ho t (ht | ⟨hwrite, hout⟩)
    · rw [(hplain o ho).2] at ht
      cases ht
    · rw [leavesOf_of_subOps_nil (hplain o ho).1] at hwrite
      exact absurd (by simpa using hwrite) hout

/-- `const _Float16 *`, `_Float16 *` and `int`. -/
def halfIn : CType := { base := "_Float16", const := true, ptr := true }

@[inherit_doc halfIn]
def halfOut : CType := { base := "_Float16", ptr := true }

@[inherit_doc halfIn]
def intScalar : CType := { base := "int" }

/-- Two elementwise kernels. -/
def elementwiseSpecs : Specs where
  items := [
    ("relu_f16", {
      op := "relu_f16"
      params := [⟨halfIn, "input"⟩, ⟨halfOut, "output"⟩, ⟨intScalar, "n"⟩] }),
    ("add_f16", {
      op := "add_f16"
      params := [⟨halfIn, "a"⟩, ⟨halfIn, "b"⟩, ⟨halfOut, "output"⟩, ⟨intScalar, "n"⟩] })]
  nodup := by decide

/-- An op on eight elements. -/
def elementwise (name kind : String) (inputs : List String) (output : String) : KernelOp where
  name := name
  op := kind
  inputs := inputs
  outputs := [output]
  shape := ⟨[("n", .atom (.int 8))], nodup_singleton _⟩

/-- An activation with a residual connection around the next one. -/
def residual : KernelGraph where
  ops := [elementwise "a" "relu_f16" ["x"] "t", elementwise "b" "relu_f16" ["t"] "u",
    elementwise "c" "add_f16" ["u", "t"] "v"]
  outputs := ["v"]

/-- Without the connection. -/
def straight : KernelGraph where
  ops := [elementwise "a" "relu_f16" ["x"] "t", elementwise "b" "relu_f16" ["t"] "u",
    elementwise "c" "relu_f16" ["u"] "v"]
  outputs := ["v"]

theorem elementwise_plain (name kind : String) (inputs : List String) (output : String) :
    (elementwise name kind inputs output).Plain := ⟨rfl, rfl⟩

theorem wellFormed_residual : WellFormed elementwiseSpecs residual := by
  apply wellFormed_of_plain
  case hplain => simp [residual, elementwise_plain]
  case hnames => decide
  case horder => simp [residual, elementwise]
  case hself => simp [residual, elementwise]
  case hruns =>
    simp only [residual, forall_mem_cons]
    exact ⟨.inr (exists_of_isOk (by decide)), .inr (exists_of_isOk (by decide)),
      .inr (exists_of_isOk (by decide)), fun o ho => absurd ho not_mem_nil⟩
  case haliases => decide
  case hparameters => decide

theorem wellFormed_straight : WellFormed elementwiseSpecs straight := by
  apply wellFormed_of_plain
  case hplain => simp [straight, elementwise_plain]
  case hnames => decide
  case horder => simp [straight, elementwise]
  case hself => simp [straight, elementwise]
  case hruns =>
    simp only [straight, forall_mem_cons]
    exact ⟨.inr (exists_of_isOk (by decide)), .inr (exists_of_isOk (by decide)),
      .inr (exists_of_isOk (by decide)), fun o ho => absurd ho not_mem_nil⟩
  case haliases => decide
  case hparameters => decide

/-- What is read once in a list of plain ops. -/
theorem readOnce_of_plain {A B : KernelOp} (hB : B.Plain)
    (h : ∀ t ∈ A.outputs, B.inputs.count t = 1) : ReadOnce A B := by
  intro t ht
  rw [stagesOf, hB.1]
  simpa using h t ht

theorem plain_of_mem_straight {o : KernelOp} (ho : o ∈ straight.ops) : o.Plain := by
  have : ∀ o ∈ straight.ops, o.Plain := by simp [straight, elementwise_plain]
  exact this o ho

/-- A pair and a chain of activations. -/
theorem fusion_sound_straight :
    (∃ g' spec, fusePair elementwiseSpecs straight "a" "b" = .ok (g', spec) ∧
      ∃ before f after, FusionSound elementwiseSpecs straight g' spec "a+b" before f after) ∧
    ∃ g' spec, fuseChain elementwiseSpecs straight ["a", "b", "c"] = .ok (g', spec) ∧
      ∃ before f after, FusionSound elementwiseSpecs straight g' spec "a+b+c" before f after := by
  obtain ⟨hpair, hchain, -⟩ := fusion_sound_iff wellFormed_straight
  have hA : elementwise "a" "relu_f16" ["x"] "t" ∈ straight.ops := by simp [straight]
  have hB : elementwise "b" "relu_f16" ["t"] "u" ∈ straight.ops := by simp [straight]
  constructor
  · obtain ⟨⟨g', spec⟩, h⟩ := exists_of_isOk
      (show (fusePair elementwiseSpecs straight "a" "b").isOk = true by decide)
    refine ⟨g', spec, h, (hpair _ hA _ hB (.inl (elementwise_plain _ _ _ _))
      (.inl (elementwise_plain _ _ _ _)) (by decide) g' spec h).mpr ?_⟩
    exact readOnce_of_plain (elementwise_plain _ _ _ _) (by decide)
  · obtain ⟨⟨g', spec⟩, h⟩ := exists_of_isOk
      (show (fuseChain elementwiseSpecs straight ["a", "b", "c"]).isOk = true by decide)
    refine ⟨g', spec, h, hchain "a" ["b", "c"] g' spec
      (fun o ho _ => .inl (plain_of_mem_straight ho)) ?_ ?_ h⟩
    · have hinits : ∀ l ∈ ["b", "c"].inits, l ≠ [] → ∀ o ∈ straight.ops,
          o.name ≠ joinedName "a" l := by decide
      exact fun l hl => hinits l ((mem_inits l _).mpr hl)
    · have honce : ∀ x y, (∀ A ∈ straight.ops, ∀ B ∈ straight.ops, A.name = x → B.name = y →
          ∀ t ∈ A.outputs, B.inputs.count t = 1) → ∀ A ∈ straight.ops, ∀ B ∈ straight.ops,
            A.name = x → B.name = y → B.PlainOrFused ∧ ReadOnce A B :=
        fun x y h A hA B hB hx hy => ⟨.inl (plain_of_mem_straight hB),
          readOnce_of_plain (plain_of_mem_straight hB) (h A hA B hB hx hy)⟩
      rw [ReadOnceAlong, isChain_cons_cons, isChain_cons_cons]
      exact ⟨honce "a" "b" (by decide), honce "b" "c" (by decide), List.IsChain.singleton "c"⟩

/-- The graph with the residual connection, its last two ops fused. -/
def fusedResidual : KernelGraph where
  ops := [elementwise "a" "relu_f16" ["x"] "t", {
    name := "b+c"
    op := "fused__relu_f16__add_f16__a"
    inputs := ["t"]
    outputs := ["v"]
    internal := ["u"]
    subOps := [elementwise "b" "relu_f16" ["t"] "u", elementwise "c" "add_f16" ["u", "t"] "v"] }]
  outputs := ["v"]

/-- It is what `fusePair` returns. -/
theorem exists_fusePair_residual :
    ∃ spec, fusePair elementwiseSpecs residual "b" "c" = .ok (fusedResidual, spec) := ⟨_, rfl⟩

/-- Two stages of the second op read `t`. They are fused with the first op all the same, and then
the tensor inside is read by two stages. -/
theorem fusePair_fusedResidual :
    WellFormed elementwiseSpecs fusedResidual ∧
      (∀ o ∈ fusedResidual.ops, o.PlainOrFused ∧ o.name ≠ "a+b+c") ∧
      ∃ g' spec, fusePair elementwiseSpecs fusedResidual "a" "b+c" = .ok (g', spec) ∧
        ¬∃ before f after,
          FusionSound elementwiseSpecs fusedResidual g' spec "a+b+c" before f after := by
  obtain ⟨spec, hspec⟩ := exists_fusePair_residual
  obtain ⟨before, mid, after, B, C, f, u, hfused⟩ := exists_of_fusePair wellFormed_residual hspec
  have hplain : ∀ o ∈ residual.ops, o.Plain := by simp [residual, elementwise_plain]
  have hB : B.Plain ∨ B.Chained := .inl (hplain B hfused.mem_left)
  have hC : C.Plain ∨ C.Chained := .inl (hplain C hfused.mem_right)
  have hwf := hfused.wellFormed wellFormed_residual hB hC (by decide)
  have hchained := hfused.chained hB hC ((hfused.isChain_iff wellFormed_residual hB hC).mpr
    (readOnce_of_plain (hplain C hfused.mem_right) (A := B) (by
      rw [hfused.accepted.outputs]
      simpa using hfused.accepted.once) u (by simp [hfused.accepted.outputs])))
  have hf : f ∈ fusedResidual.ops := hfused.ops_perm.mem_iff.mpr mem_cons_self
  have hlast : ∀ o ∈ fusedResidual.ops, o.name = "b+c" → o.Chained := by
    intro o ho hname
    rw [inj_on_of_nodup_map hwf.names ho hf (hname.trans hfused.name_eq.symm)]
    exact hchained
  have hfirst : ∀ o ∈ fusedResidual.ops, o.name = "a" → o.Plain := by
    simp [fusedResidual, elementwise_plain]
  have hnames : ∀ o ∈ fusedResidual.ops, o.name = "a" ∨ o.name = "b+c" := by decide
  have hfresh : ∀ o ∈ fusedResidual.ops, o.name ≠ "a+b+c" := by decide
  refine ⟨hwf, fun o ho => ⟨?_, hfresh o ho⟩, ?_⟩
  · rcases hnames o ho with hname | hname
    · exact .inl (hfirst o ho hname)
    · exact .inr (.inl (hlast o ho hname))
  · obtain ⟨⟨g', spec'⟩, h⟩ := exists_of_isOk
      (show (fusePair elementwiseSpecs fusedResidual "a" "b+c").isOk = true by decide)
    obtain ⟨before', mid', after', A, B', f', t, hfused'⟩ := exists_of_fusePair hwf h
    have hA := hfirst A hfused'.mem_left hfused'.name_left
    have hB' := hlast B' hfused'.mem_right hfused'.name_right
    refine ⟨g', spec', h, fun hsound => ?_⟩
    have hcount : ∀ A ∈ fusedResidual.ops, ∀ B ∈ fusedResidual.ops, A.name = "a" → B.name = "b+c" →
          ¬∀ t ∈ A.outputs, ((stagesOf B).flatMap KernelOp.inputs).count t = 1 := by
      decide
    exact hcount A hfused'.mem_left B' hfused'.mem_right hfused'.name_left hfused'.name_right
      ((hfused'.sound_iff hwf (.inl hA) (.inr hB') hfresh).mp hsound)

end ModelBlaster.KernelFusion

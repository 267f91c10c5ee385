import ModelBlaster.KernelFusion.ChainBinding

/-!
# The names of fused kinds

The kind of a fused op is the name of its kernel, and all that is kept of its spec: the stages are
read off the name again. The token of a stage is followed by the parameter that reads the tensor in
front of it if the kind has several activation inputs. These are told by the names of the
parameters, while an op is bound by the fields it has.

## Main definitions

* `parseKind`: the stages of a name;
* `specFromKind`: the spec of a name;
* `NameFits`: what a chain must be like to be read off its name.

## Main results

* `splitDunder_joinDunder_iff`: when the parts of a name are what it was joined of;
* `round_trip_iff`: the chains that can be read off their names.
-/

namespace ModelBlaster.KernelFusion

open List Fallible

/-! ### Parts between `__` -/

/-- The parts with `__` between them. -/
def joinDunder (parts : List (List Char)) : List Char := ['_', '_'].intercalate parts

/-- Induction along the separators. -/
theorem dunder_induction {motive : List Char → Prop} (nil : motive [])
    (sep : ∀ s, motive s → motive ('_' :: '_' :: s))
    (char : ∀ c s, (c = '_' → s.head? ≠ some '_') → motive s → motive (c :: s)) (s : List Char) :
    motive s := by
  have hchar : ∀ c s, (∀ s', c = '_' → s = '_' :: s' → False) → motive s → motive (c :: s) := by
    refine fun c s hno ih => char c s (fun hc hs => ?_) ih
    obtain ⟨s', rfl⟩ := head?_eq_some_iff.mp hs
    exact hno s' hc rfl
  induction s using splitDunder.induct with
  | case1 => exact nil
  | case2 s ih => exact sep s ih
  | case3 c s hno _ ih => exact hchar c s hno ih
  | case4 c s hno _ _ _ ih => exact hchar c s hno ih

theorem splitDunder_ne_nil (s : List Char) : splitDunder s ≠ [] := by
  fun_cases splitDunder s <;> exact cons_ne_nil _ _

theorem splitDunder_sep (s : List Char) : splitDunder ('_' :: '_' :: s) = [] :: splitDunder s := by
  rw [splitDunder]

variable {p s : List Char} {c : Char} {ps : List (List Char)}

/-- A character that begins no separator belongs to the first part. -/
theorem splitDunder_cons (h : c = '_' → s.head? ≠ some '_') (hs : splitDunder s = p :: ps) :
    splitDunder (c :: s) = (c :: p) :: ps := by
  rw [splitDunder, hs]
  rintro s' hc rfl
  exact h hc rfl

theorem joinDunder_splitDunder (s : List Char) : joinDunder (splitDunder s) = s := by
  induction s using dunder_induction with
  | nil => rfl
  | sep s ih =>
    rw [joinDunder] at ih ⊢
    rw [splitDunder_sep, intercalate_cons_of_ne_nil (splitDunder_ne_nil s), ih]
    rfl
  | char c s h ih =>
    obtain ⟨p, ps, hs⟩ := exists_cons_of_ne_nil (splitDunder_ne_nil s)
    rw [joinDunder] at ih ⊢
    rw [splitDunder_cons h hs, intercalate_cons_cons_left, ← hs, ih]

/-- The first part begins as the whole does. -/
theorem head?_of_splitDunder (h : splitDunder s = p :: ps) (hp : p.head? = some c) :
    s.head? = some c := by
  obtain ⟨p', rfl⟩ := head?_eq_some_iff.mp hp
  rw [← joinDunder_splitDunder s, h, joinDunder, intercalate_cons_cons_left]
  rfl

/-- A part is not split again. -/
theorem splitDunder_of_mem (hp : p ∈ splitDunder s) : splitDunder p = [p] := by
  induction s using dunder_induction generalizing p with
  | nil =>
    obtain rfl := mem_singleton.mp hp
    rfl
  | sep s ih =>
    rcases mem_cons.mp hp with rfl | hp
    · rfl
    · exact ih hp
  | char c s h ih =>
    obtain ⟨q, qs, hs⟩ := exists_cons_of_ne_nil (splitDunder_ne_nil s)
    rw [splitDunder_cons h hs] at hp
    rw [hs] at ih
    rcases mem_cons.mp hp with rfl | hp
    · exact splitDunder_cons (fun hc hq => h hc (head?_of_splitDunder hs hq))
        (ih mem_cons_self)
    · exact ih (mem_cons_of_mem _ hp)

/-- The separators are found from the left, so that none begins inside the part in front of it. -/
theorem getLast?_of_mem_dropLast (hp : p ∈ (splitDunder s).dropLast) :
    p.getLast? ≠ some '_' := by
  induction s using dunder_induction generalizing p with
  | nil => exact absurd hp not_mem_nil
  | sep s ih =>
    rw [splitDunder_sep, dropLast_cons_of_ne_nil (splitDunder_ne_nil s)] at hp
    rcases mem_cons.mp hp with rfl | hp
    · simp
    · exact ih hp
  | char c s h ih =>
    obtain ⟨q, qs, hs⟩ := exists_cons_of_ne_nil (splitDunder_ne_nil s)
    rw [splitDunder_cons h hs] at hp
    rw [hs] at ih
    cases qs with
    | nil => exact absurd hp not_mem_nil
    | cons q' qs =>
      rcases mem_cons.mp hp with rfl | hp
      · cases q with
        | nil =>
          -- The separator stands right behind `c`.
          have hhead : s.head? = some '_' := by
            rw [← joinDunder_splitDunder s, hs, joinDunder, intercalate_cons_cons]
            rfl
          intro hc
          exact h (Option.some.inj hc) hhead
        | cons d q =>
          rw [getLast?_cons_cons]
          exact ih mem_cons_self
      · exact ih (mem_cons_of_mem _ hp)

/-- What is in front of a separator is split off. -/
theorem splitDunder_append (hp : splitDunder p = [p]) (hlast : p.getLast? ≠ some '_')
    (s : List Char) :
    splitDunder (p ++ '_' :: '_' :: s) = p :: splitDunder s := by
  induction p using dunder_induction with
  | nil => exact splitDunder_sep s
  | sep p =>
    cases hp
  | char c p h ih =>
    obtain ⟨q, qs, hq⟩ := exists_cons_of_ne_nil (splitDunder_ne_nil p)
    rw [splitDunder_cons h hq] at hp
    cases hp
    cases p with
    | nil =>
      apply splitDunder_cons _ (splitDunder_sep s)
      rintro rfl
      exact absurd rfl hlast
    | cons d p =>
      apply splitDunder_cons _ (ih hq hlast)
      exact h

/-- The parts are found again if none of them has a separator, and only the last one ends in `_`. -/
theorem splitDunder_joinDunder_iff {parts : List (List Char)} (hne : parts ≠ []) :
    splitDunder (joinDunder parts) = parts ↔
      (∀ p ∈ parts, splitDunder p = [p]) ∧ ∀ p ∈ parts.dropLast, p.getLast? ≠ some '_' := by
  constructor
  · intro h
    refine ⟨fun p hp => ?_, fun p hp => ?_⟩
    · exact splitDunder_of_mem (h.symm ▸ hp)
    · exact getLast?_of_mem_dropLast (h.symm ▸ hp)
  · rintro ⟨hparts, hlast⟩
    induction parts with
    | nil => exact absurd rfl hne
    | cons p ps ih =>
      cases ps with
      | nil =>
        rw [joinDunder, intercalate_singleton]
        exact hparts p mem_cons_self
      | cons q qs =>
        show splitDunder (p ++ '_' :: '_' :: joinDunder (q :: qs)) = _
        rw [splitDunder_append (hparts p mem_cons_self) (hlast p mem_cons_self),
          ih (cons_ne_nil _ _) (fun r hr => hparts r (mem_cons_of_mem _ hr))
            fun r hr => hlast r (mem_cons_of_mem _ hr)]

/-! ### Specs by their names -/

/-- A `FusedKernelSpec`, of a chain or of ops side by side. -/
structure FusedKernelSpec where
  op : String
  params : List Param
  subOps : List String
  tParams : List (Option String)
  parallel : Bool
deriving DecidableEq

/-- The spec of a chain. -/
def KernelSpec.fused (spec : KernelSpec) : FusedKernelSpec where
  op := spec.op
  params := spec.params
  subOps := spec.subOps
  tParams := spec.tParams.map some
  parallel := false

/-- `par_kind` -/
def parKind (kinds : List String) : String := "__".intercalate ("fused" :: "par" :: kinds)

/-- The parameters that a stage has in the signature of ops side by side. -/
def parStageParams (stage : List Param × ℕ) : Except KernelError (List Param) := do
  let letter ← stagePrefix stage.2
  return stage.1.map fun p => ⟨p.ctype, letter ++ p.name⟩

section
variable (specs : Specs)

/-- `make_par_spec` -/
def makeParSpec (kinds : List String) : Except KernelError FusedKernelSpec := do
  let sigs ← kinds.mapM (paramsOf specs)
  let params ← sigs.zipIdx.mapM parStageParams
  return {
    op := parKind kinds
    params := params.flatten
    subOps := kinds
    tParams := List.replicate (kinds.length - 1) none
    parallel := true }

/-- The loop of `parse_kind`: the stages behind the first, with the parameters through which they
read. -/
def parseStages : List String → Except KernelError (List (String × String))
  | [] => .ok []
  | kind :: rest =>
    if kind ∉ specs.keys then .error .valueError
    else do
      let acts ← actInputs specs kind
      if 1 < acts.length then
        match rest with
        | [] => .error .valueError
        | name :: rest =>
          if name ∈ acts then do
            let stages ← parseStages rest
            return (kind, name) :: stages
          else .error .valueError
      else
        match acts with
        | [] => .error .indexError
        | act :: _ => do
          let stages ← parseStages rest
          return (kind, act) :: stages

/-- `parse_kind` -/
def parseKind (kind : String) : Except KernelError (List String × List String) :=
  match (splitDunder kind.toList).map String.ofList with
  | fused :: first :: second :: rest =>
    if fused ≠ "fused" then .error .valueError
    else if first = "par" then
      if rest = [] ∨ ∃ k ∈ second :: rest, k ∉ specs.keys then .error .valueError
      else .ok (second :: rest, [])
    else do
      let stages ← parseStages specs (second :: rest)
      return (first :: stages.map Prod.fst, stages.map Prod.snd)
  | _ => .error .valueError

/-- `spec_from_kind`, whose assertions hold by `op_of_specFromKind`. -/
def specFromKind (kind : String) : Except KernelError FusedKernelSpec :=
  if "fused__par__".toList.isPrefixOf kind.toList then do
    let parsed ← parseKind specs kind
    makeParSpec specs parsed.1
  else do
    let parsed ← parseKind specs kind
    let spec ← makeChainSpec specs parsed.1 parsed.2
    return spec.fused

/-! ### The tokens of a stage -/

/-- The tokens that are read as a stage, whose parameter is an activation input. -/
def IsStage (stage : String × String) (tokens : List String) : Prop :=
  ∃ acts, actInputs specs stage.1 = .ok acts ∧ stage.2 ∈ acts ∧
    tokens = if 1 < acts.length then [stage.1, stage.2] else [stage.1]

end

section
variable {specs : Specs} {stage : String × String} {tokens rest : List String}
  {stages : List (String × String)}

theorem mem_keys_of_actInputs {kind : String} {acts : List String}
    (h : actInputs specs kind = .ok acts) : kind ∈ specs.keys := by
  obtain ⟨params, hparams, -⟩ := bind_eq_ok_iff.mp h
  rw [paramsOf] at hparams
  cases hget : specs.get? kind with
  | none =>
    rw [hget] at hparams
    cases hparams
  | some spec => exact PyDict.mem_keys_of_get? hget

/-- A stage is read off the front. -/
theorem IsStage.parseStages_append (h : IsStage specs stage tokens)
    (hrest : parseStages specs rest = .ok stages) :
    parseStages specs (tokens ++ rest) = .ok (stage :: stages) := by
  obtain ⟨kind, name⟩ := stage
  obtain ⟨acts, hacts, hmem, rfl⟩ := h
  have hkey := mem_keys_of_actInputs hacts
  split_ifs with hlen
  · show parseStages specs (kind :: name :: rest) = _
    rw [parseStages, if_neg (not_not.mpr hkey), hacts]
    show (if 1 < acts.length then _ else _) = _
    rw [if_pos hlen]
    show (if name ∈ acts then _ else _) = _
    rw [if_pos hmem, hrest]
    rfl
  · -- There is no other activation input.
    obtain ⟨act, rfl⟩ : ∃ act, acts = [act] := by
      apply length_eq_one_iff.mp
      have := length_pos_of_mem hmem
      omega
    obtain rfl := mem_singleton.mp hmem
    show parseStages specs (kind :: rest) = _
    rw [parseStages, if_neg (not_not.mpr hkey), hacts]
    show (parseStages specs rest >>= _) = _
    rw [hrest]
    rfl

/-- What is read first is a stage. -/
theorem exists_isStage_of_parseStages {kind : String}
    (h : parseStages specs (kind :: rest) = .ok stages) : ∃ stage tokens rest' stages',
      IsStage specs stage tokens ∧ kind :: rest = tokens ++ rest' ∧
        parseStages specs rest' = .ok stages' ∧ stages = stage :: stages' := by
  rw [parseStages] at h
  split_ifs at h with hkey
  obtain ⟨acts, hacts, h⟩ := bind_eq_ok_iff.mp h
  split_ifs at h with hlen
  · cases rest with
    | nil => cases h
    | cons name rest' =>
      dsimp only at h
      split_ifs at h with hmem
      obtain ⟨stages', hstages', h⟩ := bind_eq_ok_iff.mp h
      cases h
      exact ⟨(kind, name), [kind, name], rest', stages', ⟨acts, hacts, hmem, (if_pos hlen).symm⟩,
        rfl, hstages', rfl⟩
  · cases acts with
    | nil => cases h
    | cons act acts' =>
      obtain ⟨stages', hstages', h⟩ := bind_eq_ok_iff.mp h
      cases h
      exact ⟨(kind, act), [kind], rest, stages',
        ⟨act :: acts', hacts, mem_cons_self, (if_neg hlen).symm⟩, rfl, hstages', rfl⟩

/-- The stages that are read, and their tokens. -/
theorem parseStages_eq_ok_iff {l : List String} : parseStages specs l = .ok stages ↔
    ∃ tokens, List.Forall₂ (IsStage specs) stages tokens ∧ l = tokens.flatten := by
  constructor
  · intro h
    induction hn : l.length using Nat.strong_induction_on generalizing l stages with
    | _ n ih =>
      subst hn
      cases l with
      | nil =>
        cases h
        exact ⟨[], .nil, rfl⟩
      | cons kind rest =>
        obtain ⟨stage, tokens, rest', stages', hstage, heq, hrest, rfl⟩ :=
          exists_isStage_of_parseStages h
        have hlt : rest'.length < (kind :: rest).length := by
          obtain ⟨acts, -, -, rfl⟩ := hstage
          rw [heq, length_append]
          split_ifs <;> simp
        obtain ⟨tokens', hforall, rfl⟩ := ih _ hlt hrest rfl
        exact ⟨tokens :: tokens', .cons hstage hforall, heq⟩
  · rintro ⟨tokens, hforall, rfl⟩
    induction hforall with
    | nil => rfl
    | cons hstage _ ih => exact hstage.parseStages_append ih

/-- The tokens that are written for a stage are those that are read. -/
theorem IsStage.eq_of_stageTokens {tokens' : List String} (h : IsStage specs stage tokens)
    (h' : stageTokens specs stage = .ok tokens') : tokens' = tokens := by
  obtain ⟨acts, hacts, -, rfl⟩ := h
  rw [stageTokens] at h'
  split_ifs at h'
  obtain ⟨acts', hacts', h'⟩ := bind_eq_ok_iff.mp h'
  obtain rfl := Except.ok.inj (hacts.symm.trans hacts')
  cases h'
  rfl

theorem eq_of_isStage {tokens tokens' : List (List String)}
    (h : List.Forall₂ (IsStage specs) stages tokens)
    (h' : stages.mapM (stageTokens specs) = .ok tokens') : tokens' = tokens := by
  rw [mapM_eq_ok_iff] at h'
  induction h generalizing tokens' with
  | nil =>
    cases h'
    rfl
  | cons hstage _ ih =>
    cases h' with
    | cons hstage' hrest => rw [hstage.eq_of_stageTokens hstage', ih hrest]

end

/-! ### Chains that are built -/

/-- A chain that `fuse_pair` builds. -/
structure BuiltChain (specs : Specs) where
  spec : KernelSpec
  built : ∃ g a b g', fusePair specs g a b = .ok (g', spec)

section
variable (specs : Specs)

/-- Whether a kind has several activation inputs. -/
def takesSeveral (kind : String) : Bool :=
  match actInputs specs kind with
  | .ok acts => 1 < acts.length
  | .error _ => false

/-- The parts of the name of a chain. -/
def chainTokens (kinds tParams : List String) : List String :=
  kinds.take 1 ++ (kinds.tail.zip tParams).flatMap fun stage =>
    if takesSeveral specs stage.1 then [stage.1, stage.2] else [stage.1]

/-- The chain can be read off its name. -/
structure NameFits (kinds tParams : List String) : Prop where
  not_par : kinds.head? ≠ some "par"
  /-- No stage reads the tensor in front of it through a parameter that is named like a weight. -/
  activation : ∀ name ∈ tParams, weightRole name = none
  /-- No part has a separator. -/
  whole : ∀ token ∈ chainTokens specs kinds tParams, ¬1 < (splitDunder token.toList).length
  /-- No part but the last one ends where a separator begins. -/
  ends : ∀ token ∈ (chainTokens specs kinds tParams).dropLast, token.toList.getLast? ≠ some '_'

/-- The stages of the name are those of the chain, and the spec of the name has its signature. -/
structure RoundTrips (spec : KernelSpec) : Prop where
  stages : (chainKind specs spec.subOps spec.tParams >>= parseKind specs) =
    .ok (spec.subOps, spec.tParams)
  signature : ∃ spec', specFromKind specs spec.op = .ok spec' ∧ spec'.op = spec.op ∧
    spec'.params = spec.params

/-- What is known of the chains that are built: `first` is the kind of the first stage, and `rest`
those of the others. -/
structure BuiltFrom (spec : KernelSpec) (first : String) (rest : List String)
    (tokens : List (List String)) : Prop where
  subOps : spec.subOps = first :: rest
  rest_ne_nil : rest ≠ []
  length : rest.length = spec.tParams.length
  tokens : (rest.zip spec.tParams).mapM (stageTokens specs) = .ok tokens
  made : makeChainSpec specs spec.subOps spec.tParams = .ok spec
  /-- A stage reads through a pointer to constants. -/
  pointer : ∀ stage ∈ rest.zip spec.tParams, ∃ params, paramsOf specs stage.1 = .ok params ∧
    ∃ p ∈ params, p.isConstPtr = true ∧ p.name = stage.2

end

section
variable {specs : Specs} {spec : KernelSpec} {first : String} {rest : List String}
  {tokens : List (List String)}

/-- `_t_param` returns a pointer to constants. -/
theorem pointer_of_tParam {op : KernelOp} {t name : String} (h : tParam specs op t = .ok name) :
    ∃ params, paramsOf specs op.op = .ok params ∧
      ∃ p ∈ params, p.isConstPtr = true ∧ p.name = name := by
  obtain ⟨args, hargs, h⟩ := bind_eq_ok_iff.mp h
  obtain ⟨params, hparams, hbind⟩ := bind_eq_ok_iff.mp hargs
  have hbound := bound_of_bindParams hbind
  cases hfind : args.find? fun a => a.value = .input t with
  | none =>
    rw [hfind] at h
    cases h
  | some a =>
    rw [hfind] at h
    cases h
    have hmem := mem_of_find?_eq_some hfind
    have hvalue : a.value = .input t := by simpa using find?_some hfind
    have hfits := hbound.fits a hmem
    rw [Arg.Fits, hvalue] at hfits
    refine ⟨params, hparams, a.param, ?_, hfits.1, rfl⟩
    rw [← hbound.params]
    exact mem_map_of_mem hmem

/-- The op that `fuse_pair` puts in place is made by `fuseOps`. -/
theorem exists_fuseOps_of_fusePair {g g' : KernelGraph} {a b : String}
    (h : fusePair specs g a b = .ok (g', spec)) :
    ∃ A B t f, fuseOps specs A B t = .ok (f, spec) := by
  obtain ⟨ia, -, h⟩ := bind_eq_ok_iff.mp h
  obtain ⟨ib, -, h⟩ := bind_eq_ok_iff.mp h
  split at h
  next A B _ _ =>
    split at h
    next t _ =>
      split_ifs at h
      obtain ⟨⟨f, spec'⟩, hfused, h⟩ := bind_eq_ok_iff.mp h
      cases h
      exact ⟨A, B, t, f, hfused⟩
    · cases h
  · cases h

theorem BuiltChain.exists_builtFrom (c : BuiltChain specs) :
    ∃ first rest tokens, BuiltFrom specs c.spec first rest tokens := by
  obtain ⟨g, a, b, g', hfuse⟩ := c.built
  obtain ⟨A, B, t, f, hops⟩ := exists_fuseOps_of_fusePair hfuse
  obtain ⟨tps, htps, hmade, -⟩ := eq_of_fuseOps hops
  obtain ⟨sigs, params, outs, -, -, -, hkind, hspec⟩ := eq_of_makeChainSpec hmade
  have hsub : c.spec.subOps = (stagesOf A ++ stagesOf B).map KernelOp.op := by rw [hspec]
  have htp : c.spec.tParams = tps := by rw [hspec]
  have hlen := length_of_mapM htps
  rw [length_range] at hlen
  have hA := length_pos_iff.mpr (stagesOf_ne_nil A)
  have hB := length_pos_iff.mpr (stagesOf_ne_nil B)
  generalize hstages : stagesOf A ++ stagesOf B = stages at htps hmade hkind hsub hlen
  have hcount : 2 ≤ stages.length := by
    rw [← hstages, length_append]
    omega
  obtain ⟨s, stages, rfl⟩ := exists_cons_of_length_pos (show 0 < stages.length by omega)
  rw [length_cons] at hlen hcount
  obtain ⟨tokens, htokens, -⟩ := bind_eq_ok_iff.mp hkind
  refine ⟨s.op, stages.map KernelOp.op, tokens, hsub, ?_, ?_, ?_, ?_, ?_⟩
  · rw [ne_eq, map_eq_nil_iff]
    rintro rfl
    simp at hcount
  · rw [length_map, htp]
    omega
  · rw [htp]
    exact htokens
  · rw [hsub, htp]
    exact hmade
  · intro stage hstage
    obtain ⟨i, hi⟩ := mem_iff_getElem?.mp hstage
    obtain ⟨hop, hname⟩ := getElem?_zip_eq_some.mp hi
    rw [getElem?_map] at hop
    obtain ⟨o, ho, hkindo⟩ := Option.map_eq_some_iff.mp hop
    rw [htp] at hname
    have hlt := (List.getElem?_eq_some_iff.mp hname).1
    obtain ⟨name, hname', hat⟩ := getElem?_of_mapM htps
      (getElem?_range (show i < (s :: stages).length - 1 by simpa using by omega))
    obtain rfl := Option.some.inj (hname.symm.trans hname')
    rw [tParamAt, getElem?_cons_succ, ho] at hat
    split at hat
    next o' x ho' _ =>
      obtain rfl := Option.some.inj ho'
      rw [← hkindo]
      exact pointer_of_tParam hat
    · cases hat

end

/-! ### Reading a name -/

section
variable {specs : Specs} {kind : String} {parts : List String}

/-- The parts of a name. -/
theorem parts_eq_iff :
    (splitDunder kind.toList).map String.ofList = parts ↔
      splitDunder kind.toList = parts.map String.toList := by
  constructor
  · rintro rfl
    simp
  · intro h
    rw [h]
    simp

theorem toList_intercalate_dunder (parts : List String) :
    ("__".intercalate parts).toList = joinDunder (parts.map String.toList) := by
  rw [String.toList_intercalate]
  rfl

/-- A name is what its parts are joined to. -/
theorem eq_intercalate_of_parts (h : (splitDunder kind.toList).map String.ofList = parts) :
    kind = "__".intercalate parts := by
  apply String.toList_inj.mp
  rw [toList_intercalate_dunder, ← parts_eq_iff.mp h, joinDunder_splitDunder]

/-- What `parse_kind` returns, and the parts that it is read off. -/
theorem exists_of_parseKind {parsed : List String × List String}
    (h : parseKind specs kind = .ok parsed) : ∃ first second rest,
      (splitDunder kind.toList).map String.ofList = "fused" :: first :: second :: rest ∧
        ((first = "par" ∧ parsed = (second :: rest, [])) ∨
          (first ≠ "par" ∧ ∃ stages, parseStages specs (second :: rest) = .ok stages ∧
            parsed = (first :: stages.map Prod.fst, stages.map Prod.snd))) := by
  rw [parseKind] at h
  split at h
  next fused first second rest heq =>
    split_ifs at h with hfused hpar hrest
    · cases h
      rw [not_not] at hfused
      exact ⟨first, second, rest, hfused ▸ heq, .inl ⟨hpar, rfl⟩⟩
    · obtain ⟨stages, hstages, h⟩ := bind_eq_ok_iff.mp h
      cases h
      rw [not_not] at hfused
      exact ⟨first, second, rest, hfused ▸ heq, .inr ⟨hpar, stages, hstages, rfl⟩⟩
  · cases h

/-- The stages of a name that is one of a chain. -/
theorem parseKind_of_parts {first second : String} {rest : List String}
    {stages : List (String × String)}
    (h : (splitDunder kind.toList).map String.ofList = "fused" :: first :: second :: rest)
    (hpar : first ≠ "par") (hstages : parseStages specs (second :: rest) = .ok stages) :
    parseKind specs kind = .ok (first :: stages.map Prod.fst, stages.map Prod.snd) := by
  rw [parseKind, h]
  show (if "fused" ≠ "fused" then _ else if first = "par" then _ else _) = _
  rw [if_neg (not_not.mpr rfl), if_neg hpar, hstages]
  rfl

/-- The names of ops side by side are told by their second part. -/
theorem isPrefixOf_par_iff :
    "fused__par__".toList.isPrefixOf kind.toList = true ↔ ∃ second rest,
      (splitDunder kind.toList).map String.ofList = "fused" :: "par" :: second :: rest := by
  rw [List.isPrefixOf_iff_prefix]
  constructor
  · rintro ⟨s, hs⟩
    have hsplit : splitDunder kind.toList = "fused".toList :: "par".toList :: splitDunder s := by
      rw [← hs]
      show splitDunder ("fused".toList ++ '_' :: '_' :: ("par".toList ++ '_' :: '_' :: s)) = _
      rw [splitDunder_append (by decide) (by decide), splitDunder_append (by decide) (by decide)]
    obtain ⟨p, ps, hp⟩ := exists_cons_of_ne_nil (splitDunder_ne_nil s)
    refine ⟨String.ofList p, ps.map String.ofList, ?_⟩
    rw [hsplit, hp]
    simp
  · rintro ⟨second, rest, h⟩
    rw [eq_intercalate_of_parts h, toList_intercalate_dunder]
    refine ⟨joinDunder ((second :: rest).map String.toList), ?_⟩
    rfl

/-- The spec of a name is of that name. -/
theorem op_of_specFromKind {spec : FusedKernelSpec} (h : specFromKind specs kind = .ok spec) :
    spec.op = kind := by
  rw [specFromKind] at h
  split_ifs at h with hprefix
  · obtain ⟨parsed, hparsed, h⟩ := bind_eq_ok_iff.mp h
    obtain ⟨second, rest, hparts⟩ := isPrefixOf_par_iff.mp hprefix
    obtain ⟨first', second', rest', hparts', hcases⟩ := exists_of_parseKind hparsed
    obtain ⟨rfl, rfl, rfl⟩ : first' = "par" ∧ second' = second ∧ rest' = rest := by
      rw [hparts] at hparts'
      cases hparts'
      exact ⟨rfl, rfl, rfl⟩
    obtain ⟨-, rfl⟩ := hcases.resolve_right fun h => h.1 rfl
    obtain ⟨sigs, -, h⟩ := bind_eq_ok_iff.mp h
    obtain ⟨params, -, h⟩ := bind_eq_ok_iff.mp h
    cases h
    exact (eq_intercalate_of_parts hparts).symm
  · obtain ⟨parsed, hparsed, h⟩ := bind_eq_ok_iff.mp h
    obtain ⟨spec', hspec', h⟩ := bind_eq_ok_iff.mp h
    cases h
    obtain ⟨first, second, rest, hparts, hcases⟩ := exists_of_parseKind hparsed
    have hpar : first ≠ "par" := by
      rintro rfl
      exact hprefix (isPrefixOf_par_iff.mpr ⟨second, rest, hparts⟩)
    obtain ⟨-, stages, hstages, rfl⟩ := hcases.resolve_left fun h => hpar h.1
    obtain ⟨-, -, -, -, -, -, hkind, -⟩ := eq_of_makeChainSpec hspec'
    obtain ⟨tokens, htokens, hop⟩ := bind_eq_ok_iff.mp hkind
    rw [← zip_of_prod rfl rfl] at htokens
    obtain ⟨tokens', hforall, hflat⟩ := parseStages_eq_ok_iff.mp hstages
    obtain rfl := eq_of_isStage hforall htokens
    show spec'.op = kind
    rw [← Except.ok.inj hop, ← hflat, eq_intercalate_of_parts hparts]

end

/-! ### The round trip -/

section
variable {specs : Specs} {spec : KernelSpec} {first : String} {rest : List String}
  {tokens : List (List String)}

/-- A parameter that is no weight by its name is an activation input. -/
theorem mem_actInputs_iff {kind name : String}
    (h : ∃ params, paramsOf specs kind = .ok params ∧
      ∃ p ∈ params, p.isConstPtr = true ∧ p.name = name) :
    (∃ acts, actInputs specs kind = .ok acts ∧ name ∈ acts) ↔ weightRole name = none := by
  obtain ⟨params, hparams, p, hp, hptr, rfl⟩ := h
  have hacts : actInputs specs kind = .ok ((params.filter fun p =>
      p.isConstPtr && (weightRole p.name).isNone).map Param.name) :=
    bind_eq_ok_iff.mpr ⟨params, hparams, rfl⟩
  constructor
  · rintro ⟨acts, hacts', hmem⟩
    obtain rfl := Except.ok.inj (hacts.symm.trans hacts')
    obtain ⟨q, hq, hname⟩ := mem_map.mp hmem
    have hrole := (mem_filter.mp hq).2
    rw [hname] at hrole
    simpa [hptr] using (Bool.and_eq_true_iff.mp hrole).2
  · intro hrole
    refine ⟨_, hacts, mem_map_of_mem (mem_filter.mpr ⟨hp, ?_⟩)⟩
    rw [hptr, hrole]
    rfl

variable {stage : String × String} {stages : List (String × String)}

/-- The tokens of a stage depend on how many activation inputs there are. -/
theorem stageTokens_eq {tokens : List String} (h : stageTokens specs stage = .ok tokens) :
    tokens = if takesSeveral specs stage.1 then [stage.1, stage.2] else [stage.1] := by
  rw [stageTokens] at h
  split_ifs at h
  obtain ⟨acts, hacts, h⟩ := bind_eq_ok_iff.mp h
  cases h
  rw [takesSeveral, hacts]
  simp

theorem flatten_stageTokens (h : stages.mapM (stageTokens specs) = .ok tokens) :
    tokens.flatten = stages.flatMap fun stage =>
      if takesSeveral specs stage.1 then [stage.1, stage.2] else [stage.1] := by
  rw [mapM_eq_ok_iff] at h
  induction h with
  | nil => rfl
  | cons hstage _ ih => rw [flatten_cons, flatMap_cons, ih, stageTokens_eq hstage]

/-- The name of a chain is joined of its parts. -/
theorem BuiltFrom.tokens_eq (h : BuiltFrom specs spec first rest tokens) :
    chainTokens specs spec.subOps spec.tParams = first :: tokens.flatten ∧
      spec.op = "__".intercalate ("fused" :: first :: tokens.flatten) := by
  constructor
  · rw [flatten_stageTokens h.tokens, h.subOps]
    rfl
  · obtain ⟨-, -, -, -, -, -, hkind, -⟩ := eq_of_makeChainSpec h.made
    rw [h.subOps] at hkind
    obtain ⟨tokens', htokens', hop⟩ := bind_eq_ok_iff.mp hkind
    obtain rfl := Except.ok.inj (h.tokens.symm.trans htokens')
    exact (Except.ok.inj hop).symm

/-- The parts of the name are the tokens iff no token is split, or runs into the separator. -/
theorem BuiltFrom.parts_iff (h : BuiltFrom specs spec first rest tokens) :
    (splitDunder spec.op.toList).map String.ofList = "fused" :: first :: tokens.flatten ↔
      (∀ token ∈ chainTokens specs spec.subOps spec.tParams,
        ¬1 < (splitDunder token.toList).length) ∧
        ∀ token ∈ (chainTokens specs spec.subOps spec.tParams).dropLast,
          token.toList.getLast? ≠ some '_' := by
  obtain ⟨htokens, hop⟩ := h.tokens_eq
  have hwhole : ∀ s : List Char, splitDunder s = [s] ↔ ¬1 < (splitDunder s).length := by
    intro s
    obtain ⟨p, ps, hp⟩ := exists_cons_of_ne_nil (splitDunder_ne_nil s)
    rw [hp]
    cases ps with
    | nil =>
      have := joinDunder_splitDunder s
      rw [hp, joinDunder, intercalate_singleton] at this
      simp [this]
    | cons q qs => simp
  rw [parts_eq_iff, htokens, hop, toList_intercalate_dunder,
    splitDunder_joinDunder_iff (by simp)]
  simp only [map_cons, forall_mem_cons, hwhole, dropLast_cons_cons, forall_mem_map]
  have hdrop : (first.toList :: tokens.flatten.map String.toList).dropLast =
      (first :: tokens.flatten).dropLast.map String.toList := by
    rw [map_dropLast]
    rfl
  have hfused : ¬1 < (splitDunder "fused".toList).length ∧
      "fused".toList.getLast? ≠ some '_' := by decide
  rw [hdrop, forall_mem_map]
  constructor
  · rintro ⟨⟨-, hwhole⟩, -, hends⟩
    exact ⟨hwhole, hends⟩
  · rintro ⟨hwhole, hends⟩
    exact ⟨⟨hfused.1, hwhole⟩, hfused.2, hends⟩

/-- A stage whose parameter is an activation input is read as it is written. -/
theorem isStage_iff {tokens : List String} (h : stageTokens specs stage = .ok tokens) :
    IsStage specs stage tokens ↔ ∃ acts, actInputs specs stage.1 = .ok acts ∧ stage.2 ∈ acts := by
  constructor
  · rintro ⟨acts, hacts, hmem, -⟩
    exact ⟨acts, hacts, hmem⟩
  · rintro ⟨acts, hacts, hmem⟩
    refine ⟨acts, hacts, hmem, ?_⟩
    rw [stageTokens_eq h, takesSeveral, hacts]
    simp

theorem forall₂_isStage_iff (h : stages.mapM (stageTokens specs) = .ok tokens) :
    List.Forall₂ (IsStage specs) stages tokens ↔
      ∀ stage ∈ stages, ∃ acts, actInputs specs stage.1 = .ok acts ∧ stage.2 ∈ acts := by
  rw [mapM_eq_ok_iff] at h
  induction h with
  | nil => simp
  | cons hstage _ ih => rw [forall_mem_cons, forall₂_cons, ih, isStage_iff hstage]

section
variable (h : BuiltFrom specs spec first rest tokens)
include h

/-- The stages are read off the tokens iff no parameter is named like a weight. -/
theorem BuiltFrom.stages_iff :
    parseStages specs tokens.flatten = .ok (rest.zip spec.tParams) ↔
      ∀ name ∈ spec.tParams, weightRole name = none := by
  have hnames : (∀ name ∈ spec.tParams, weightRole name = none) ↔ ∀ stage ∈ rest.zip spec.tParams,
      ∃ acts, actInputs specs stage.1 = .ok acts ∧ stage.2 ∈ acts := by
    have hsnd := @List.map_snd_zip _ _ rest spec.tParams h.length.ge
    rw [← hsnd, forall_mem_map, hsnd]
    exact forall₂_congr fun stage hstage => (mem_actInputs_iff (h.pointer stage hstage)).symm
  rw [hnames, ← forall₂_isStage_iff h.tokens, parseStages_eq_ok_iff]
  constructor
  · rintro ⟨tokens', hforall, -⟩
    rwa [eq_of_isStage hforall h.tokens]
  · intro hforall
    exact ⟨tokens, hforall, rfl⟩

/-- The tokens behind the first are not empty. -/
theorem BuiltFrom.exists_flatten_eq :
    ∃ second others, tokens.flatten = second :: others := by
  apply exists_cons_of_ne_nil
  have hmapM := mapM_eq_ok_iff.mp h.tokens
  obtain ⟨kind, rest', rfl⟩ := exists_cons_of_ne_nil h.rest_ne_nil
  obtain ⟨name, names, htps⟩ := exists_cons_of_length_pos
    (show 0 < spec.tParams.length by rw [← h.length]; simp)
  rw [htps, zip_cons_cons] at hmapM
  cases hmapM with
  | cons hstage _ =>
    rw [stageTokens_eq hstage]
    split_ifs <;> simp

/-- A chain is read off its name iff the name fits. -/
theorem BuiltFrom.parse_iff :
    parseKind specs spec.op = .ok (spec.subOps, spec.tParams) ↔
      NameFits specs spec.subOps spec.tParams := by
  obtain ⟨second, others, hflatten⟩ := h.exists_flatten_eq
  have hzip : (first :: (rest.zip spec.tParams).map Prod.fst,
      (rest.zip spec.tParams).map Prod.snd) = (spec.subOps, spec.tParams) := by
    rw [map_fst_zip h.length.le, map_snd_zip h.length.ge, h.subOps]
  constructor
  · intro hparse
    obtain ⟨first', second', others', hparts, hcases⟩ := exists_of_parseKind hparse
    have hpar : first' ≠ "par" := by
      rintro rfl
      obtain ⟨-, heq⟩ := hcases.resolve_right fun h => h.1 rfl
      have hlen := h.length
      rw [(Prod.mk.inj heq).2, length_nil, length_eq_zero_iff] at hlen
      exact h.rest_ne_nil hlen
    obtain ⟨-, stages, hstages, heq⟩ := hcases.resolve_left fun h => hpar h.1
    obtain ⟨hkinds, htps⟩ := Prod.mk.inj heq
    rw [h.subOps] at hkinds
    obtain ⟨rfl, hrest⟩ := List.cons.inj hkinds
    obtain rfl : rest.zip spec.tParams = stages := (zip_of_prod hrest.symm htps.symm).symm
    obtain ⟨tokens', hforall, hflat⟩ := parseStages_eq_ok_iff.mp hstages
    obtain rfl := eq_of_isStage hforall h.tokens
    rw [hflat] at hstages hparts
    obtain ⟨hwhole, hends⟩ := h.parts_iff.mp hparts
    refine ⟨?_, h.stages_iff.mp hstages, hwhole, hends⟩
    rw [h.subOps]
    exact fun hhead => hpar (Option.some.inj hhead)
  · rintro ⟨hpar, hnames, hwhole, hends⟩
    have hparts := h.parts_iff.mpr ⟨hwhole, hends⟩
    have hstages := h.stages_iff.mpr hnames
    rw [hflatten] at hparts hstages
    rw [h.subOps] at hpar
    rw [parseKind_of_parts hparts (fun hfirst => hpar (congrArg some hfirst)) hstages, hzip]

/-- What is read off its name has its spec. -/
theorem BuiltFrom.roundTrips_iff :
    RoundTrips specs spec ↔ NameFits specs spec.subOps spec.tParams := by
  obtain ⟨-, -, -, -, -, -, hkind, -⟩ := eq_of_makeChainSpec h.made
  have hstages : (chainKind specs spec.subOps spec.tParams >>= parseKind specs) =
      parseKind specs spec.op := by
    rw [hkind]
    rfl
  constructor
  · rintro ⟨hparse, -⟩
    rw [hstages] at hparse
    exact h.parse_iff.mp hparse
  · intro hfits
    have hparse := h.parse_iff.mpr hfits
    refine ⟨hstages.trans hparse, spec.fused, ?_, rfl, rfl⟩
    have hprefix : ¬"fused__par__".toList.isPrefixOf spec.op.toList = true := by
      rw [isPrefixOf_par_iff]
      rintro ⟨second, others, hparts⟩
      rw [h.parts_iff.mpr ⟨hfits.whole, hfits.ends⟩] at hparts
      have hpar := hfits.not_par
      rw [h.subOps] at hpar
      exact hpar (congrArg some (List.cons.inj (List.cons.inj hparts).2).1)
    rw [specFromKind, if_neg hprefix, hparse]
    show (makeChainSpec specs spec.subOps spec.tParams >>= _) = _
    rw [h.made]
    rfl

end

end

/-- The chains that `fuse_pair` builds from the kinds of a table can be read off their names, and
have different names, iff all their names fit. -/
theorem round_trip_iff (specs : Specs) (chains : Set (BuiltChain specs)) :
    ((∀ c ∈ chains, RoundTrips specs c.spec) ∧ ∀ c ∈ chains, ∀ d ∈ chains,
      c.spec.op = d.spec.op → c.spec.subOps = d.spec.subOps ∧ c.spec.tParams = d.spec.tParams) ↔
      ∀ c ∈ chains, NameFits specs c.spec.subOps c.spec.tParams := by
  have hiff : ∀ c : BuiltChain specs,
      RoundTrips specs c.spec ↔ NameFits specs c.spec.subOps c.spec.tParams := by
    intro c
    obtain ⟨first, rest, tokens, h⟩ := c.exists_builtFrom
    exact h.roundTrips_iff
  constructor
  · rintro ⟨hround, -⟩ c hc
    exact (hiff c).mp (hround c hc)
  · intro hfits
    refine ⟨fun c hc => (hiff c).mpr (hfits c hc), fun c hc d hd hop => ?_⟩
    -- The same name is read in one way only.
    obtain ⟨first, rest, tokens, h⟩ := c.exists_builtFrom
    obtain ⟨first', rest', tokens', h'⟩ := d.exists_builtFrom
    have hparse := h.parse_iff.mpr (hfits c hc)
    rw [hop, h'.parse_iff.mpr (hfits d hd)] at hparse
    exact ⟨(Prod.mk.inj (Except.ok.inj hparse)).1.symm, (Prod.mk.inj (Except.ok.inj hparse)).2.symm⟩

/-! ### A projection without weights -/

/-- An activation and a projection. -/
def projectionSpecs : Specs where
  items := [
    ("relu", {
      op := "relu"
      params := [⟨⟨"float", true, true⟩, "input"⟩, ⟨⟨"float", false, true⟩, "output"⟩] }),
    ("linear", {
      op := "linear"
      params := [⟨⟨"float", true, true⟩, "input"⟩, ⟨⟨"float", true, true⟩, "weight"⟩,
        ⟨⟨"float", true, true⟩, "bias"⟩, ⟨⟨"float", false, true⟩, "output"⟩] })]
  nodup := by decide

/-- A projection by the output of an activation: it has no `weight`, so that this is its second
input. -/
def projection : KernelGraph where
  ops := [
    { name := "a", op := "relu", inputs := ["w"], outputs := ["h"] },
    { name := "b", op := "linear", inputs := ["x", "h"], outputs := ["y"],
      fields := ⟨[("bias", .atom .null)], nodup_singleton _⟩ }]
  outputs := ["y"]

/-- The chain of both. -/
def projectionChain : KernelSpec where
  op := "fused__relu__linear"
  params := [⟨⟨"float", true, true⟩, "a_input"⟩, ⟨⟨"float", false, true⟩, "a_output"⟩,
    ⟨⟨"float", true, true⟩, "b_input"⟩, ⟨⟨"float", true, true⟩, "b_bias"⟩,
    ⟨⟨"float", false, true⟩, "b_output"⟩]
  subOps := ["relu", "linear"]
  tParams := ["weight"]

theorem exists_fusePair_projection :
    ∃ g, fusePair projectionSpecs projection "a" "b" = .ok (g, projectionChain) := ⟨_, rfl⟩

theorem chainKind_projection :
    chainKind projectionSpecs ["relu", "linear"] ["weight"] = .ok projectionChain.op := rfl

/-- The name tells nothing of the parameter, and the first one is taken for it. -/
theorem parseKind_projection : parseKind projectionSpecs projectionChain.op =
    .ok (["relu", "linear"], ["input"]) := by
  have hparts : (splitDunder projectionChain.op.toList).map String.ofList =
      ["fused", "relu", "linear"] := parts_eq_iff.mpr (by decide)
  have hstages : parseStages projectionSpecs ["linear"] = .ok [("linear", "input")] :=
    parseStages_eq_ok_iff.mpr
      ⟨[["linear"]], .cons ⟨["input"], rfl, mem_singleton_self _, rfl⟩ .nil, rfl⟩
  exact parseKind_of_parts hparts (by decide) hstages

theorem op_of_specFromKind_projection :
    ∃ spec, specFromKind projectionSpecs projectionChain.op = .ok spec ∧
      spec.op = projectionChain.op := by
  obtain ⟨spec, h⟩ : ∃ spec, specFromKind projectionSpecs projectionChain.op = .ok spec := by
    rw [specFromKind, if_neg (by decide), parseKind_projection]
    exact ⟨_, rfl⟩
  exact ⟨spec, h, op_of_specFromKind h⟩

/-- The chain is built, but its parameter is not found from its name. -/
theorem not_roundTrips_projection : ∃ c : BuiltChain projectionSpecs,
    (∃ g, fusePair projectionSpecs projection "a" "b" = .ok (g, c.spec)) ∧
      c.spec = projectionChain ∧ ¬RoundTrips projectionSpecs projectionChain := by
  obtain ⟨g, hfuse⟩ := exists_fusePair_projection
  refine ⟨⟨projectionChain, projection, "a", "b", g, hfuse⟩, ⟨g, hfuse⟩, rfl, fun hround => ?_⟩
  obtain ⟨kind, hkind, hparse⟩ := bind_eq_ok_iff.mp hround.stages
  have hop : kind = projectionChain.op := Except.ok.inj (hkind.symm.trans chainKind_projection)
  rw [hop, parseKind_projection] at hparse
  have hnames : ["input"] = ["weight"] := (Prod.mk.inj (Except.ok.inj hparse)).2
  exact absurd hnames (by decide)

end ModelBlaster.KernelFusion

import ModelBlaster.KernelFusion.ChainStages

/-!
# The arguments of a chain

When the stages of a fused op are a chain, `bindFused` has an argument for each parameter of the
signature, and the calls of the composite kernel pass to every stage what the stage would be passed
on its own.

## Main definitions

* `MatchesSignature`: one argument for each parameter, in order;
* `seedProgram`: the calls of the composite kernel, on the arguments of the fused op.

## Main results

* `ChainBinding.matchesSignature`: `bindFused` has an argument for each parameter;
* `ChainBinding.seedProgram_eq`: the composite kernel runs the stages.
-/

namespace ModelBlaster.KernelFusion

open StraightLine List Fallible

/-! ### A stage -/

section
variable {params : List Param} {ins outs : List String} {args : List Arg} {x : String}

/-- Two elements of a list that has one element are the same. -/
theorem eq_of_length_eq_one {α : Type} {l : List α} (h : l.length = 1) {a b : α} (ha : a ∈ l)
    (hb : b ∈ l) : a = b := by
  obtain ⟨c, rfl⟩ := length_eq_one_iff.mp h
  rw [mem_singleton.mp ha, mem_singleton.mp hb]

/-- As often as a tensor is an input, as many arguments pass it. -/
theorem Bound.length_filter_input (h : Bound params ins outs args) (x : String) :
    (args.filter fun a => a.value = .input x).length = ins.count x := by
  rw [← h.inputs]
  clear h
  induction args with
  | nil => rfl
  | cons a rest ih =>
    rcases a with ⟨v, p⟩
    cases v with
    | input t =>
      show _ = List.count x (t :: rest.filterMap fun a => a.value.input?)
      by_cases ht : t = x
      · subst ht
        rw [filter_cons_of_pos (by simp), length_cons, ih, count_cons_self]
      · rw [filter_cons_of_neg (by simp [ht]), ih, count_cons_of_ne ht]
    | output t => exact (congrArg List.length (filter_cons_of_neg (by simp))).trans ih
    | scratch t => exact (congrArg List.length (filter_cons_of_neg (by simp))).trans ih
    | weight key => exact (congrArg List.length (filter_cons_of_neg (by simp))).trans ih
    | null => exact (congrArg List.length (filter_cons_of_neg (by simp))).trans ih
    | scalar v => exact (congrArg List.length (filter_cons_of_neg (by simp))).trans ih

/-- A tensor that is one input of an op is passed for one parameter. -/
theorem Bound.input_iff (h : Bound params ins outs args) (hnd : (params.map Param.name).Nodup)
    (hcount : ins.count x = 1) {a₀ : Arg} (ha₀ : a₀ ∈ args) (hx : a₀.value = .input x) {a : Arg}
    (ha : a ∈ args) : a.value = .input x ↔ a.param.name = a₀.param.name := by
  constructor
  · intro hval
    have hone := (h.length_filter_input x).trans hcount
    rw [eq_of_length_eq_one hone (mem_filter.mpr ⟨ha, by simpa using hval⟩)
      (mem_filter.mpr ⟨ha₀, by simpa using hx⟩)]
  · intro hname
    rw [← h.params, map_map] at hnd
    rw [inj_on_of_nodup_map hnd ha ha₀ hname]
    exact hx

end

section
variable {specs : Specs} {stages : List KernelOp} {internal tps : List String}

theorem asScratch_param (internal : List String) (n i : ℕ) (a : Arg) :
    (asScratch internal n i a).param = a.param := by
  rw [asScratch]
  split
  · split_ifs <;> rfl
  · rfl

theorem asScratch_place (internal : List String) (n i : ℕ) (a : Arg) :
    (asScratch internal n i a).value.place = a.value.place := by
  rcases a with ⟨v, p⟩
  cases v with
  | output t =>
    rw [asScratch]
    dsimp only
    split_ifs <;> rfl
  | input t | scratch t | weight key | null | scalar v => rfl

theorem readsPrevious_asScratch (internal : List String) (n i k : ℕ) (a : Arg) :
    readsPrevious internal k (asScratch internal n i a) = readsPrevious internal k a := by
  rcases a with ⟨v, p⟩
  cases v with
  | output t =>
    rw [asScratch]
    dsimp only
    split_ifs <;> cases k <;> rfl
  | input t | scratch t | weight key | null | scalar v => rfl

/-- What is known of a stage of a chain: its arguments, and the parameter that reads the tensor in
front of it. -/
structure StageBinding (specs : Specs) (internal tps : List String) (i : ℕ) (s : KernelOp)
    (params : List Param) (args : List Arg) (reading : Option String) : Prop where
  params_eq : paramsOf specs s.op = .ok params
  names : (params.map Param.name).Nodup
  args_eq : bindOp specs s = .ok args
  bound : Bound params s.inputs s.outputs args
  reading_eq : readingParam tps i = .ok reading
  /-- The tensor in front is passed for that parameter only. -/
  reads : ∀ a ∈ args, readsPrevious internal i a = true ↔ reading = some a.param.name

/-- Every stage of a chain is bound. -/
theorem exists_stageBinding (hchain : IsChain stages internal)
    (hparameters : ∀ kind params, paramsOf specs kind = .ok params → (params.map Param.name).Nodup)
    (hbinds : ∀ s ∈ stages, ∃ args, bindOp specs s = .ok args)
    (htps : (List.range (stages.length - 1)).mapM (tParamAt specs stages internal) = .ok tps)
    {i : ℕ} {s : KernelOp} (hs : stages[i]? = some s) :
    ∃ params args reading, StageBinding specs internal tps i s params args reading := by
  obtain ⟨args, hargs⟩ := hbinds s (mem_of_getElem? hs)
  obtain ⟨params, hparams, hbound⟩ := bound_of_bindOp hargs
  have hnames := hparameters _ _ hparams
  cases i with
  | zero =>
    refine ⟨params, args, none, hparams, hnames, hargs, hbound, rfl, fun a _ => ?_⟩
    have hfalse : readsPrevious internal 0 a = false := rfl
    simp [hfalse]
  | succ i =>
    have hlen := hchain.length
    have hi := (List.getElem?_eq_some_iff.mp hs).1
    obtain ⟨x, hx⟩ : ∃ x, internal[i]? = some x :=
      ⟨_, getElem?_eq_getElem (show i < internal.length by omega)⟩
    obtain ⟨tp, htp, hfind⟩ := getElem?_of_mapM htps
      (getElem?_range (show i < stages.length - 1 by omega))
    rw [tParamAt, hs, hx] at hfind
    obtain ⟨args', hargs', hfind⟩ := bind_eq_ok_iff.mp hfind
    obtain rfl : args' = args := Except.ok.inj (hargs'.symm.trans hargs)
    split at hfind
    next a₀ ha₀ =>
      cases hfind
      have hcount := hchain.read i x hx (i + 1) s hs
      rw [if_pos rfl] at hcount
      refine ⟨params, args', some a₀.param.name, hparams, hnames, hargs, hbound,
        by rw [readingParam, htp], fun a ha => ?_⟩
      have hiff := hbound.input_iff hnames hcount (mem_of_find?_eq_some ha₀)
        (by simpa using find?_some ha₀) ha
      have hprev : readsPrevious internal (i + 1) a = true ↔ a.value = .input x := by
        rcases a with ⟨v, p⟩
        cases v <;> simp [readsPrevious, hx, eq_comm]
      rw [hprev, hiff, Option.some.injEq, eq_comm]
    · cases hfind

variable {i : ℕ} {s : KernelOp} {params : List Param} {args : List Arg} {reading : Option String}

/-- The arguments that a stage adds. -/
def keptArgs (internal : List String) (n i : ℕ) (args : List Arg) : List Arg :=
  (args.map (asScratch internal n i)).filter fun a => !readsPrevious internal i a

section
variable (h : StageBinding specs internal tps i s params args reading)
include h

theorem StageBinding.bindStage_eq (n : ℕ) :
    bindStage specs internal n (s, i) = .ok (keptArgs internal n i args) := by
  rw [bindStage, h.args_eq]
  rfl

/-- They are for the parameters that the stage has in the signature of the chain. -/
theorem StageBinding.map_param_keptArgs (n : ℕ) :
    (keptArgs internal n i args).map Arg.param =
      params.filter fun p => reading ≠ some p.name := by
  rw [keptArgs, filter_map, map_map, ← h.bound.params, filter_map]
  have hparam : Arg.param ∘ asScratch internal n i = Arg.param :=
    funext fun a => asScratch_param internal n i a
  congr 1
  apply filter_congr
  intro a ha
  show (!readsPrevious internal i (asScratch internal n i a)) = decide (reading ≠ some a.param.name)
  rw [readsPrevious_asScratch, Bool.eq_iff_iff, Bool.not_eq_true', decide_eq_true_iff,
    ← Bool.not_eq_true, h.reads a ha]

/-- An argument that is kept passes what the stage would be passed on its own. -/
theorem StageBinding.exists_kept (n : ℕ) {a : Arg} (ha : a ∈ args)
    (hkept : reading ≠ some a.param.name) :
    ∃ a' ∈ keptArgs internal n i args, a'.param = a.param ∧ a'.value.place = a.value.place := by
  refine ⟨asScratch internal n i a, mem_filter.mpr ⟨mem_map_of_mem ha, ?_⟩,
    asScratch_param internal n i a, asScratch_place internal n i a⟩
  rw [readsPrevious_asScratch, Bool.not_eq_true', ← Bool.not_eq_true, h.reads a ha]
  exact hkept

end

end

/-! ### The signature -/

/-- `stage_prefix`, of a stage that has a letter. -/
def letterOf (i : ℕ) : String := String.ofList [stageLetters.getD i '_', '_']

variable {i : ℕ} {spec : KernelSpec} {stageArgs : List (List Arg)} {a : Arg}

theorem stagePrefix_eq_ok_iff {letter : String} :
    stagePrefix i = .ok letter ↔ i < stageLetters.length ∧ letter = letterOf i := by
  rw [stagePrefix, letterOf]
  cases h : stageLetters[i]? with
  | none =>
    rw [List.getElem?_eq_none_iff] at h
    simp only [reduceCtorEq, false_iff, not_and]
    omega
  | some c =>
    rw [getD_eq_getElem?_getD, h]
    have hlt := (List.getElem?_eq_some_iff.mp h).1
    simp only [Except.ok.injEq, Option.getD_some, hlt, true_and]
    exact eq_comm

/-- Two stages have no parameter name in common. -/
theorem letterOf_append_inj {j : ℕ} (hi : i < stageLetters.length) (hj : j < stageLetters.length)
    {n m : String} (h : letterOf i ++ n = letterOf j ++ m) : i = j ∧ n = m := by
  have hlist := congrArg String.toList h
  simp only [letterOf, String.toList_append, String.toList_ofList, cons_append, nil_append,
    List.cons.injEq, true_and] at hlist
  have hnd : stageLetters.Nodup := by decide
  refine ⟨?_, String.toList_inj.mp hlist.2⟩
  rw [getD_eq_getElem?_getD, getD_eq_getElem?_getD, getElem?_eq_getElem hi,
    getElem?_eq_getElem hj] at hlist
  exact (List.Nodup.getElem_inj_iff hnd).mp hlist.1

/-- The arguments are for the parameters of the signature, in their order. -/
def MatchesSignature (spec : KernelSpec) (args : List Arg) : Prop :=
  List.Forall₂ (fun p a => p.ctype = a.param.ctype ∧
    ∃ i letter, stagePrefix i = .ok letter ∧ p.name = letter ++ a.param.name) spec.params args

/-- The parts of a chain's spec. -/
theorem eq_of_makeChainSpec {specs : Specs} {kinds tps : List String}
    (h : makeChainSpec specs kinds tps = .ok spec) : ∃ sigs params outs,
      kinds.mapM (paramsOf specs) = .ok sigs ∧ sigs.zipIdx.mapM (stageParams tps) = .ok params ∧
        sigs.mapM firstOut = .ok outs ∧ chainKind specs kinds tps = .ok spec.op ∧
          spec = ⟨spec.op, params.flatten, kinds, tps⟩ := by
  obtain ⟨kind, hkind, h⟩ := bind_eq_ok_iff.mp h
  obtain ⟨sigs, hsigs, h⟩ := bind_eq_ok_iff.mp h
  obtain ⟨params, hparams, h⟩ := bind_eq_ok_iff.mp h
  obtain ⟨outs, houts, h⟩ := bind_eq_ok_iff.mp h
  cases h
  exact ⟨sigs, params, outs, hsigs, hparams, houts, hkind, rfl⟩

/-- The arguments of the stages, with the numbers of the stages. -/
def tagged (stageArgs : List (List Arg)) : List (ℕ × Arg) :=
  stageArgs.zipIdx.flatMap fun l => l.1.map (Prod.mk l.2)

theorem mem_tagged :
    (i, a) ∈ tagged stageArgs ↔ ∃ args, stageArgs[i]? = some args ∧ a ∈ args := by
  simp only [tagged, mem_flatMap, mem_map, Prod.mk.injEq, Prod.exists, mem_zipIdx_iff_getElem?]
  constructor
  · rintro ⟨args, j, hj, a', ha', rfl, rfl⟩
    exact ⟨args, hj, ha'⟩
  · rintro ⟨args, hi, ha⟩
    exact ⟨args, i, hi, a, ha, rfl, rfl⟩

theorem map_snd_tagged (stageArgs : List (List Arg)) :
    (tagged stageArgs).map Prod.snd = stageArgs.flatten := by
  have hpart : ∀ l : List Arg × ℕ, (l.1.map (Prod.mk l.2)).map Prod.snd = l.1 := by
    intro l
    rw [map_map]
    exact map_id l.1
  rw [tagged, map_flatMap]
  simp only [hpart]
  rw [flatMap_def, zipIdx_map_fst]

/-- The parameter of the signature that an argument is for. -/
def signatureParam (e : ℕ × Arg) : Param := ⟨e.2.param.ctype, letterOf e.1 ++ e.2.param.name⟩

/-- Parameters that are given stage by stage. -/
theorem flatten_eq_map_tagged {params : List (List Param)} (hlen : params.length = stageArgs.length)
    (h : ∀ (i : ℕ) l, stageArgs[i]? = some l →
      params[i]? = some (l.map fun a => signatureParam (i, a))) :
    params.flatten = (tagged stageArgs).map signatureParam := by
  have hparams : params = stageArgs.zipIdx.map fun l =>
      l.1.map fun a => signatureParam (l.2, a) := by
    apply ext_getElem?
    intro i
    rw [getElem?_map, getElem?_zipIdx]
    cases hl : stageArgs[i]? with
    | none =>
      rw [List.getElem?_eq_none_iff] at hl
      rw [getElem?_eq_none (by omega)]
      rfl
    | some l =>
      rw [h i l hl, Option.map_map, Nat.zero_add]
      rfl
  rw [hparams, tagged, map_flatMap, ← flatMap_def]
  simp only [map_map]
  rfl

/-- What is known of all stages of a chain. -/
structure ChainBinding (specs : Specs) (stages : List KernelOp) (internal tps : List String)
    (spec : KernelSpec) (stageArgs : List (List Arg)) : Prop where
  stage : ∀ (i : ℕ) s, stages[i]? = some s → ∃ params args reading,
    StageBinding specs internal tps i s params args reading ∧
      stageArgs[i]? = some (keptArgs internal stages.length i args)
  chain : IsChain stages internal
  bindStages : stages.zipIdx.mapM (bindStage specs internal stages.length) = .ok stageArgs
  letters : stages.length ≤ stageLetters.length
  params : spec.params = (tagged stageArgs).map signatureParam
  subOps : spec.subOps = stages.map KernelOp.op
  tParams : spec.tParams = tps
  firstOuts : ∃ sigs outs, (stages.map KernelOp.op).mapM (paramsOf specs) = .ok sigs ∧
    sigs.mapM firstOut = .ok outs

section
variable {specs : Specs} {stages : List KernelOp} {internal tps : List String} {spec : KernelSpec}

theorem exists_chainBinding (hchain : IsChain stages internal)
    (hparameters : ∀ kind params, paramsOf specs kind = .ok params → (params.map Param.name).Nodup)
    (hbinds : ∀ s ∈ stages, ∃ args, bindOp specs s = .ok args)
    (htps : (List.range (stages.length - 1)).mapM (tParamAt specs stages internal) = .ok tps)
    (hspec : makeChainSpec specs (stages.map KernelOp.op) tps = .ok spec) :
    ∃ stageArgs, ChainBinding specs stages internal tps spec stageArgs := by
  have hstage : ∀ (i : ℕ) s, stages[i]? = some s → ∃ params args reading,
      StageBinding specs internal tps i s params args reading := fun i s hs =>
    exists_stageBinding hchain hparameters hbinds htps hs
  obtain ⟨sigs, params, outs, hsigs, hparams, houts, -, heq⟩ := eq_of_makeChainSpec hspec
  obtain ⟨stageArgs, hargs⟩ : ∃ stageArgs,
      stages.zipIdx.mapM (bindStage specs internal stages.length) = .ok stageArgs := by
    apply exists_mapM_eq_ok
    rintro ⟨s, i⟩ hmem
    obtain ⟨params, args, reading, h⟩ := hstage i s (mem_zipIdx_iff_getElem?.mp hmem)
    exact ⟨_, h.bindStage_eq stages.length⟩
  have hlenArgs : stageArgs.length = stages.length := (length_of_mapM hargs).trans length_zipIdx
  have hget : ∀ (i : ℕ) s params args reading, stages[i]? = some s →
      StageBinding specs internal tps i s params args reading →
        stageArgs[i]? = some (keptArgs internal stages.length i args) := by
    intro i s params args reading hs h
    obtain ⟨l, hl, hrun⟩ := getElem?_of_mapM hargs
      (show stages.zipIdx[i]? = some (s, i) by rw [getElem?_zipIdx, hs]; simp)
    rw [h.bindStage_eq stages.length] at hrun
    rw [hl, Except.ok.inj hrun]
  -- The parameters of each stage in the signature are those of its arguments.
  have hpart : ∀ (i : ℕ) s, stages[i]? = some s → i < stageLetters.length ∧
      params[i]? = (stageArgs[i]?).map fun args => args.map fun a => signatureParam (i, a) := by
    intro i s hs
    obtain ⟨ps, args, reading, h⟩ := hstage i s hs
    obtain ⟨ps', hps', hparamsOf⟩ := getElem?_of_mapM hsigs
      (show (stages.map KernelOp.op)[i]? = some s.op by rw [getElem?_map, hs]; rfl)
    obtain rfl : ps = ps' := Except.ok.inj (h.params_eq.symm.trans hparamsOf)
    obtain ⟨l, hl, hrun⟩ := getElem?_of_mapM hparams
      (show sigs.zipIdx[i]? = some (ps, i) by rw [getElem?_zipIdx, hps']; simp)
    obtain ⟨letter, hletter, hrun⟩ := bind_eq_ok_iff.mp hrun
    obtain ⟨reading', hreading, hrun⟩ := bind_eq_ok_iff.mp hrun
    obtain rfl : reading = reading' := Except.ok.inj (h.reading_eq.symm.trans hreading)
    obtain ⟨hi, rfl⟩ := stagePrefix_eq_ok_iff.mp hletter
    refine ⟨hi, ?_⟩
    rw [hl, hget i s ps args reading hs h, ← Except.ok.inj hrun,
      ← h.map_param_keptArgs stages.length, map_map]
    rfl
  have hlenParams : params.length = stageArgs.length := by
    rw [length_of_mapM hparams, length_zipIdx, length_of_mapM hsigs, length_map, hlenArgs]
  have hparamsEq : params.flatten = (tagged stageArgs).map signatureParam := by
    apply flatten_eq_map_tagged hlenParams
    intro i l hl
    obtain ⟨s, hs⟩ : ∃ s, stages[i]? = some s :=
      ⟨_, getElem?_eq_getElem (hlenArgs ▸ (List.getElem?_eq_some_iff.mp hl).1)⟩
    rw [(hpart i s hs).2, hl]
    rfl
  refine ⟨stageArgs, fun i s hs => ?_, hchain, hargs, ?_, ?_, ?_, ?_, sigs, outs, hsigs, houts⟩
  · obtain ⟨ps, args, reading, h⟩ := hstage i s hs
    exact ⟨ps, args, reading, h, hget i s ps args reading hs h⟩
  · by_contra hlong
    obtain ⟨s, hs⟩ : ∃ s, stages[stageLetters.length]? = some s :=
      ⟨_, getElem?_eq_getElem (by omega)⟩
    exact absurd (hpart _ s hs).1 (Nat.lt_irrefl _)
  · rw [heq]
    exact hparamsEq
  · rw [heq]
  · rw [heq]

variable {stageArgs : List (List Arg)}

/-- The arguments of the stages are for the parameters of the signature, in their order. -/
theorem matchesSignature_of_tagged (hparams : spec.params = (tagged stageArgs).map signatureParam)
    (hletters : stageArgs.length ≤ stageLetters.length) :
    MatchesSignature spec stageArgs.flatten := by
  rw [MatchesSignature, hparams, ← map_snd_tagged, forall₂_map_left_iff,
    forall₂_map_right_iff, forall₂_same]
  rintro ⟨i, a⟩ hmem
  obtain ⟨args, hargs, -⟩ := mem_tagged.mp hmem
  have hi := (List.getElem?_eq_some_iff.mp hargs).1
  exact ⟨rfl, i, letterOf i, stagePrefix_eq_ok_iff.mpr ⟨by omega, rfl⟩, rfl⟩

section
variable (h : ChainBinding specs stages internal tps spec stageArgs)
include h

theorem ChainBinding.length_stageArgs :
    stageArgs.length = stages.length :=
  (length_of_mapM h.bindStages).trans length_zipIdx

/-- The fused op has an argument for each parameter of its signature, in their order. -/
theorem ChainBinding.matchesSignature :
    MatchesSignature spec stageArgs.flatten :=
  matchesSignature_of_tagged h.params (h.length_stageArgs ▸ h.letters)

end

end

/-! ### The composite kernel -/

/-- What is passed for a parameter of the signature. -/
def resolve (spec : KernelSpec) (args : List Arg) (name : String) : Except KernelError Place :=
  match ((spec.params.map Param.name).zip (args.map (·.value.place))).lookup name with
  | some x => .ok x
  | none => .error .keyError

/-- The calls of the composite kernel, on the arguments of a fused op. -/
def seedProgram {V : Type} (K : Kernels V) (specs : Specs) (spec : KernelSpec) (args : List Arg) :
    Except KernelError (List (Instr String V)) := do
  let calls ← seedCalls specs spec
  calls.mapM fun call => do
    let passed ← call.2.mapM fun e => do
      let x ← resolve spec args e.2
      return (e.1, x)
    return callInstr K call.1 passed

/-- The value of a key whose entries agree. -/
theorem lookup_eq_some {α β : Type} [BEq α] [LawfulBEq α] {l : List (α × β)} {k : α} {v : β}
    (hmem : (k, v) ∈ l) (hagree : ∀ v', (k, v') ∈ l → v' = v) : l.lookup k = some v := by
  induction l with
  | nil => cases hmem
  | cons e rest ih =>
    obtain ⟨k', v'⟩ := e
    by_cases hk : k = k'
    · subst hk
      rw [lookup_cons_self, hagree v' mem_cons_self]
    · have hne : (k == k') = false := by simpa using hk
      rw [lookup_cons, hne]
      rcases mem_cons.mp hmem with heq | hrest
      · exact absurd (congrArg Prod.fst heq) hk
      · exact ih hrest fun v'' hv'' => hagree v'' (mem_cons_of_mem _ hv'')

/-- A parameter of the signature is found by the letter of its stage and its name. -/
theorem resolve_of_tagged (hparams : spec.params = (tagged stageArgs).map signatureParam)
    (hletters : stageArgs.length ≤ stageLetters.length) {l : List Arg} (hl : stageArgs[i]? = some l)
    (ha : a ∈ l) (hname : ∀ a' ∈ l, a'.param.name = a.param.name → a' = a) :
    resolve spec stageArgs.flatten (letterOf i ++ a.param.name) = .ok a.value.place := by
  have hlookup : ((spec.params.map Param.name).zip
      (stageArgs.flatten.map (·.value.place))).lookup (letterOf i ++ a.param.name) =
        some a.value.place := by
    rw [hparams, ← map_snd_tagged, map_map, map_map, zip_map']
    apply lookup_eq_some
    · exact mem_map.mpr ⟨(i, a), mem_tagged.mpr ⟨l, hl, ha⟩, rfl⟩
    · intro x hx
      obtain ⟨⟨j, a'⟩, hmem, heq⟩ := mem_map.mp hx
      obtain ⟨l', hl', ha'⟩ := mem_tagged.mp hmem
      have hj := (List.getElem?_eq_some_iff.mp hl').1
      have hi := (List.getElem?_eq_some_iff.mp hl).1
      obtain ⟨hkey, rfl⟩ := Prod.mk.inj heq
      obtain ⟨rfl, hsame⟩ := letterOf_append_inj (by omega) (by omega) hkey
      obtain rfl := Option.some.inj (hl.symm.trans hl')
      exact congrArg (fun a : Arg => a.value.place) (hname a' ha' hsame)
  rw [resolve, hlookup]

/-- Calls that pass to every stage its own arguments run the stages. -/
theorem exists_calls {V : Type} (K : Kernels V) {specs : Specs} {stages : List KernelOp}
    {sigs : List (List Param)} {spec : KernelSpec} {args : List Arg}
    {pass : ℕ → Param → Except KernelError (Param × String)}
    (hsigs : (stages.map KernelOp.op).mapM (paramsOf specs) = .ok sigs)
    (hkinds : ∀ s ∈ stages, s.op ∉ aliasOps)
    (hstage : ∀ (i : ℕ) s, stages[i]? = some s → ∃ stageArgs, bindOp specs s = .ok stageArgs ∧
      ∀ a ∈ stageArgs, ∃ name, pass i a.param = .ok (a.param, name) ∧
        resolve spec args name = .ok a.value.place) :
    ∃ calls, (((stages.map KernelOp.op).zip sigs).zipIdx.mapM fun stage => do
        let passed ← stage.1.2.mapM (pass stage.2)
        return (stage.1.1, passed)) = .ok calls ∧
      (calls.mapM fun call => do
        let passed ← call.2.mapM fun e => do
          let x ← resolve spec args e.2
          return (e.1, x)
        return callInstr K call.1 passed : Except KernelError (List (Instr String V))) =
          .ok (stages.map (leafInstr K specs)) := by
  -- Both traversals are traversals of the numbered stages.
  have hsig : ∀ kind ∈ stages.map KernelOp.op,
      paramsOf specs kind = .ok ((paramsOf specs kind).toOption.getD []) := by
    intro kind hkind
    obtain ⟨params, -, hparams⟩ := exists_of_mapM_eq_ok hsigs hkind
    rw [hparams]
    rfl
  have hsigsEq : sigs = stages.map fun s => (paramsOf specs s.op).toOption.getD [] := by
    have hmap := mapM_eq_ok_map hsig
    rw [hsigs, map_map] at hmap
    exact Except.ok.inj hmap
  have hzip : ((stages.map KernelOp.op).zip sigs).zipIdx = stages.zipIdx.map fun e =>
      ((e.1.op, (paramsOf specs e.1.op).toOption.getD []), e.2) := by
    rw [hsigsEq, zip_map', zipIdx_map]
    rfl
  refine ⟨stages.zipIdx.map fun e => (e.1.op, ((paramsOf specs e.1.op).toOption.getD []).map
    fun p => (p, (((pass e.2 p).toOption.map Prod.snd).getD ""))), ?_, ?_⟩
  · rw [hzip, mapM_map]
    apply mapM_eq_ok_map
    rintro ⟨s, i⟩ hmem
    obtain ⟨stageArgs, hbind, hpass⟩ := hstage i s (mem_zipIdx_iff_getElem?.mp hmem)
    obtain ⟨params, hparams, hbound⟩ := bound_of_bindOp hbind
    have hargs : params.mapM (pass i) = .ok (params.map fun p =>
        (p, ((pass i p).toOption.map Prod.snd).getD "")) := by
      apply mapM_eq_ok_map
      intro p hp
      rw [← hbound.params] at hp
      obtain ⟨a, ha, rfl⟩ := mem_map.mp hp
      obtain ⟨name, hname, -⟩ := hpass a ha
      rw [hname]
      rfl
    show (((paramsOf specs s.op).toOption.getD []).mapM (pass i) >>= _) = _
    rw [hparams]
    show (params.mapM (pass i) >>= _) = _
    rw [hargs]
    rfl
  · have hstages : stages.map (leafInstr K specs) =
        stages.zipIdx.map (leafInstr K specs ∘ Prod.fst) := by
      rw [← map_map, zipIdx_map_fst]
    rw [mapM_map, hstages]
    apply mapM_eq_ok_map
    rintro ⟨s, i⟩ hmem
    have hs := mem_zipIdx_iff_getElem?.mp hmem
    obtain ⟨stageArgs, hbind, hpass⟩ := hstage i s hs
    obtain ⟨params, hparams, hbound⟩ := bound_of_bindOp hbind
    have hpassed : (params.map fun p =>
        (p, ((pass i p).toOption.map Prod.snd).getD "")).mapM (fun e => do
          let x ← resolve spec args e.2
          return (e.1, x)) = .ok (stageArgs.map Arg.passed) := by
      rw [← hbound.params, map_map, mapM_map]
      apply mapM_eq_ok_map
      intro a ha
      obtain ⟨name, hname, hplace⟩ := hpass a ha
      show (resolve spec args (((pass i a.param).toOption.map Prod.snd).getD "") >>= _) = _
      rw [hname]
      show (resolve spec args name >>= _) = _
      rw [hplace]
      rfl
    show ((((paramsOf specs s.op).toOption.getD []).map _).mapM _ >>= _) = _
    rw [hparams]
    show ((params.map _).mapM _ >>= _) = _
    rw [hpassed]
    exact congrArg Except.ok (leafInstr_of_bindOp K (hkinds s (mem_of_getElem? hs)) hbind).symm

section
variable {specs : Specs} {stages : List KernelOp} {internal tps : List String} {spec : KernelSpec}
  {stageArgs : List (List Arg)} {i : ℕ} {s : KernelOp} {params : List Param} {args : List Arg}
  {reading : Option String}

/-- The arguments that a stage adds are for parameters of different names. -/
theorem StageBinding.eq_of_name (h : StageBinding specs internal tps i s params args reading)
    (n : ℕ) {a a' : Arg} (ha : a ∈ keptArgs internal n i args)
    (ha' : a' ∈ keptArgs internal n i args) (heq : a.param.name = a'.param.name) : a = a' := by
  have hnd : ((keptArgs internal n i args).map fun a => a.param.name).Nodup := by
    have hmap := congrArg (List.map Param.name) (h.map_param_keptArgs n)
    rw [map_map] at hmap
    show ((keptArgs internal n i args).map (Param.name ∘ Arg.param)).Nodup
    rw [hmap]
    exact h.names.sublist (filter_sublist.map _)
  exact inj_on_of_nodup_map hnd ha ha' heq

/-- What the signature has for an argument of a stage. -/
theorem ChainBinding.resolve_eq (h : ChainBinding specs stages internal tps spec stageArgs)
    (hs : stages[i]? = some s) (hstage : StageBinding specs internal tps i s params args reading)
    {a : Arg} (ha : a ∈ keptArgs internal stages.length i args) :
    resolve spec stageArgs.flatten (letterOf i ++ a.param.name) = .ok a.value.place := by
  obtain ⟨_, args', _, hstage', hget⟩ := h.stage i s hs
  obtain rfl : args' = args := Except.ok.inj (hstage'.args_eq.symm.trans hstage.args_eq)
  exact resolve_of_tagged h.params (h.length_stageArgs ▸ h.letters) hget ha
    fun a' ha' hsame => hstage.eq_of_name stages.length ha' ha hsame

/-- The first pointer of a stage that is written passes the tensor behind it. -/
theorem StageBinding.exists_firstOut (h : StageBinding specs internal tps i s params args reading)
    {x name : String} (hout : s.outputs = [x]) (hfirst : firstOut params = .ok name) :
    ∃ a ∈ args, a.param.name = name ∧ a.value = .output x := by
  rw [firstOut] at hfirst
  split at hfirst
  next p hp =>
    cases hfirst
    have hmem := mem_of_find?_eq_some hp
    rw [← h.bound.params] at hmem
    obtain ⟨a, ha, rfl⟩ := mem_map.mp hmem
    refine ⟨a, ha, rfl, ?_⟩
    have hptr : a.param.isOutPtr = true := find?_some hp
    have hfits := h.bound.fits a ha
    have houts := h.bound.outputs
    rw [hout] at houts
    obtain ⟨v, p⟩ := a
    cases v with
    | output t =>
      have ht : t ∈ args.filterMap (·.value.output?) := mem_filterMap.mpr ⟨_, ha, rfl⟩
      rw [houts, mem_singleton] at ht
      rw [ht]
    | input t | weight key | null | scalar v => exact absurd hptr (by simp [hfits.2])
    | scratch t => exact absurd hfits id
  · cases hfirst

/-- What a call passes for a parameter of a stage. -/
theorem ChainBinding.exists_seedArg (h : ChainBinding specs stages internal tps spec stageArgs)
    {sigs : List (List Param)} {outs : List String}
    (hsigs : (stages.map KernelOp.op).mapM (paramsOf specs) = .ok sigs)
    (houts : sigs.mapM firstOut = .ok outs) (hs : stages[i]? = some s)
    (hstage : StageBinding specs internal tps i s params args reading) {a : Arg} (ha : a ∈ args) :
    ∃ name, seedArg tps outs i a.param = .ok (a.param, name) ∧
      resolve spec stageArgs.flatten name = .ok a.value.place := by
  have hlen := h.letters
  have hi := (List.getElem?_eq_some_iff.mp hs).1
  by_cases hreading : reading = some a.param.name
  · -- The parameter reads the tensor in front, which the stage in front has as scratch.
    cases i with
    | zero => exact absurd (hreading.symm.trans (Except.ok.inj hstage.reading_eq).symm) (by simp)
    | succ k =>
      have hprev := (hstage.reads a ha).mpr hreading
      obtain ⟨x, hx, hval⟩ : ∃ x, internal[k]? = some x ∧ a.value = .input x := by
        obtain ⟨v, p⟩ := a
        cases v with
        | input x => exact ⟨x, by simpa [readsPrevious] using hprev, rfl⟩
        | output t | scratch t | weight key | null | scalar v => cases hprev
      obtain ⟨s', hs', hout⟩ := h.chain.produced k x hx
      obtain ⟨params', args', reading', hstage', -⟩ := h.stage k s' hs'
      obtain ⟨ps, hps, hparamsOf⟩ := getElem?_of_mapM hsigs
        (show (stages.map KernelOp.op)[k]? = some s'.op by rw [getElem?_map, hs']; rfl)
      obtain rfl : params' = ps := Except.ok.inj (hstage'.params_eq.symm.trans hparamsOf)
      obtain ⟨out, hout', hfirst⟩ := getElem?_of_mapM houts hps
      obtain ⟨a', ha', rfl, hval'⟩ := hstage'.exists_firstOut hout hfirst
      have hkept : reading' ≠ some a'.param.name := by
        intro heq
        have hreads := (hstage'.reads a' ha').mpr heq
        obtain ⟨v, p⟩ := a'
        obtain rfl : v = .output x := hval'
        cases k <;> cases hreads
      obtain ⟨a'', ha'', hparam, hplace⟩ := hstage'.exists_kept stages.length ha' hkept
      refine ⟨letterOf k ++ a'.param.name, ?_, ?_⟩
      · rw [seedArg, hstage.reading_eq]
        show (if reading = some a.param.name then _ else _) = _
        rw [if_pos hreading, Nat.add_sub_cancel,
          stagePrefix_eq_ok_iff.mpr ⟨show k < _ by omega, rfl⟩, hout']
        rfl
      · rw [← hparam, h.resolve_eq hs' hstage' ha'', hplace, hval', hval]
        rfl
  · obtain ⟨a', ha', hparam, hplace⟩ := hstage.exists_kept stages.length ha hreading
    refine ⟨letterOf i ++ a.param.name, ?_, ?_⟩
    · rw [seedArg, hstage.reading_eq]
      show (if reading = some a.param.name then _ else _) = _
      rw [if_neg hreading, stagePrefix_eq_ok_iff.mpr ⟨show i < _ by omega, rfl⟩]
      rfl
    · rw [← hparam, h.resolve_eq hs hstage ha', hplace]

/-- The composite kernel runs the stages. -/
theorem ChainBinding.seedProgram_eq {V : Type} (K : Kernels V)
    (h : ChainBinding specs stages internal tps spec stageArgs)
    (hkinds : ∀ s ∈ stages, s.op ∉ aliasOps) :
    seedProgram K specs spec stageArgs.flatten = .ok (stages.map (leafInstr K specs)) := by
  obtain ⟨sigs, outs, hsigs, houts⟩ := h.firstOuts
  have hpass : ∀ (i : ℕ) s, stages[i]? = some s → ∃ args, bindOp specs s = .ok args ∧
      ∀ a ∈ args, ∃ name, seedArg tps outs i a.param = .ok (a.param, name) ∧
        resolve spec stageArgs.flatten name = .ok a.value.place := by
    intro i s hs
    obtain ⟨params, args, reading, hstage, -⟩ := h.stage i s hs
    exact ⟨args, hstage.args_eq, fun a ha => h.exists_seedArg hsigs houts hs hstage ha⟩
  obtain ⟨calls, hcalls, hrun⟩ := exists_calls K hsigs hkinds hpass
  have hseed : seedCalls specs spec = .ok calls := by
    rw [seedCalls, h.subOps, hsigs, h.tParams]
    show (sigs.mapM firstOut >>= _) = _
    rw [houts]
    exact hcalls
  rw [seedProgram, hseed]
  exact hrun

end

end ModelBlaster.KernelFusion

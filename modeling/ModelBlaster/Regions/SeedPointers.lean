import ModelBlaster.Library.Fallible
import ModelBlaster.Regions.SeedLevels

/-!
# Pointers of a region seed

The parameters of a region stand for tensors and weights. If their names are distinct, the pointers
that are written in the seed point where the tensors are.

## Main definitions

* `evalPtr`: where a pointer expression points;
* `NamesDistinct`: the parameters can be told apart;
* `IsSeed`: what the loop over the members leaves.

## Main results

* `named_iff_namesDistinct`: parameters with distinct names are found, and no others;
* `isSeed_of_seedRun`: the loop writes a call for each member, with the pointers of its arguments;
* `IsSeed.evalArg_eq`: the arguments are evaluated to the places of the tensors.
-/

namespace ModelBlaster.RegionSlots

open GraphPrune RegionWindows List

/-! ### Buffers -/

/-- What a parameter of the kernel points to. -/
inductive SeedBuffer where
  | tensor (t : String)
  | weight (w : String)
deriving DecidableEq, Repr

/-- The buffer that a parameter is given. -/
def RegionParam.buffer (p : RegionParam) : SeedBuffer :=
  match p.role with
  | .weight => .weight p.value
  | _ => .tensor p.value

/-- The buffer of a name. In C the names of the parameters have to be distinct. -/
def entryBuffer (params : List RegionParam) (name : String) : Option SeedBuffer :=
  if (params.map RegionParam.name).Nodup then
    (params.find? fun p => p.name = name).map RegionParam.buffer
  else none

/-- Where a pointer expression points: a buffer, and an offset. -/
def evalPtr (params : List RegionParam) : PtrExpr → Option (SeedBuffer × ℤ)
  | .param name => (entryBuffer params name).map fun b => (b, 0)
  | .missing => none
  | .add e k => (evalPtr params e).map fun p => (p.1, p.2 + k)

/-- What a kernel is given. -/
inductive Passed where
  | ptr (b : SeedBuffer) (off : ℤ)
  | null
  | scalar (text : String)
deriving DecidableEq, Repr

/-- What an argument of a call is evaluated to. -/
def evalArg (params : List RegionParam) : SeedArg → Option Passed
  | .ptr e => (evalPtr params e).map fun p => .ptr p.1 p.2
  | .null => some .null
  | .scalar text => some (.scalar text)

/-- What the argument means in the graph. -/
def meaning (members : List RegionOp) (a : RegionArg) : Passed :=
  match a.kind with
  | .null => .null
  | .scalar => .scalar a.value
  | .weight => .ptr (.weight a.value) 0
  | _ => .ptr (.tensor (addrOf members a.value).1) (addrOf members a.value).2

/-! ### Parameters -/

/-- The arguments of all members. -/
def allArgs (env : RegionEnv) (members : List RegionOp) : List RegionArg :=
  (members.filter (!RegionOp.isAlias ·)).flatMap fun m => (env.args m).getD []

/-- An argument that is a tensor. -/
def RegionArg.isTensor (a : RegionArg) : Bool := a.kind ∈ [.input, .output, .scratch]

/-- The tensors that the region needs: arguments of members, and inputs of views and chunks. Those
that views and chunks make are left out. -/
def passedTensors (env : RegionEnv) (members : List RegionOp) : List String :=
  (((allArgs env members).filter RegionArg.isTensor).map RegionArg.value ++
    (members.filter RegionOp.isAlias).filterMap (·.inputs.head?)).filter (· ∉ aliasOuts members)

/-- The weights that the region needs. -/
def passedWeights (env : RegionEnv) (members : List RegionOp) : List String :=
  ((allArgs env members).filter (·.kind = .weight)).map RegionArg.value

/-- The parameters of a region can be told apart: no two of them have one name, and no tensor is
called as the key of a weight is. -/
def NamesDistinct (env : RegionEnv) (members : List RegionOp) (params : List RegionParam) : Prop :=
  (∀ p ∈ params, ∀ q ∈ params, p.name = q.name → p = q) ∧
    ∀ t ∈ passedTensors env members, ∀ w ∈ passedWeights env members, t ≠ weightKey w

/-- What is asked for under a key is found. -/
def Finds (params : List RegionParam) (key : String) (b : SeedBuffer) : Prop :=
  ∃ name, (paramNames params).get? key = some name ∧ entryBuffer params name = some b

/-- All tensors and weights that the region needs are found. -/
structure Named (env : RegionEnv) (members : List RegionOp) (params : List RegionParam) :
    Prop where
  tensors : ∀ t ∈ passedTensors env members, Finds params t (.tensor t)
  weights : ∀ w ∈ passedWeights env members, Finds params (weightKey w) (.weight w)

/-- A parameter is added, if there is none with its key. -/
def offer (st : ParamState) (p : RegionParam) : ParamState :=
  if p.key ∈ st.seen then st else ⟨st.params ++ [p], st.seen ++ [p.key]⟩

/-- The parameter that an argument asks for. -/
def argParam (mem : List RegionOp) (outputs internal : List String) (a : RegionArg) :
    Option RegionParam :=
  match a.kind with
  | .null | .scalar => none
  | .weight => some ⟨.weight, a.value⟩
  | _ => if a.value ∈ aliasOuts mem then none else some ⟨roleOf outputs internal a, a.value⟩

/-- The parameter that the input of a view or a chunk asks for. -/
def baseParam (mem : List RegionOp) (src : String) : Option RegionParam :=
  if src ∈ aliasOuts mem ∨ src ∈ mem.flatMap RegionOp.outputs then none else some ⟨.input, src⟩

section
variable {mem : List RegionOp} {outputs internal : List String}

theorem roleOf_ne_weight (outputs internal : List String) (a : RegionArg) :
    roleOf outputs internal a ≠ .weight := by
  rw [roleOf]
  split_ifs <;> exact nofun

theorem RegionParam.key_of_ne {p : RegionParam} (h : p.role ≠ .weight) : p.key = p.value := by
  rw [RegionParam.key]
  split
  · next heq => exact absurd heq h
  · rfl

theorem RegionParam.buffer_of_ne {p : RegionParam} (h : p.role ≠ .weight) :
    p.buffer = .tensor p.value := by
  rw [RegionParam.buffer]
  split
  · next heq => exact absurd heq h
  · rfl

theorem RegionParam.key_of_eq {p : RegionParam} (h : p.role = .weight) :
    p.key = weightKey p.value := by
  rw [RegionParam.key, h]

theorem RegionParam.buffer_of_eq {p : RegionParam} (h : p.role = .weight) :
    p.buffer = .weight p.value := by
  rw [RegionParam.buffer, h]

theorem addParam_eq (st : ParamState) (a : RegionArg) :
    addParam mem outputs internal st a = (argParam mem outputs internal a).elim st (offer st) := by
  have htensor : (if a.value ∈ aliasOuts mem ∨ a.value ∈ st.seen then st
      else ⟨st.params ++ [⟨roleOf outputs internal a, a.value⟩], st.seen ++ [a.value]⟩) =
      (if a.value ∈ aliasOuts mem then none
        else some (⟨roleOf outputs internal a, a.value⟩ : RegionParam)).elim st (offer st) := by
    by_cases halias : a.value ∈ aliasOuts mem
    · rw [if_pos (.inl halias), if_pos halias]
      rfl
    · rw [if_neg halias]
      show _ = offer st _
      have hkey := @RegionParam.key_of_ne ⟨roleOf outputs internal a, a.value⟩
        (roleOf_ne_weight outputs internal a)
      rw [offer, hkey]
      by_cases hseen : a.value ∈ st.seen
      · rw [if_pos (.inr hseen), if_pos hseen]
      · rw [if_neg (by rw [not_or]; exact ⟨halias, hseen⟩), if_neg hseen]
  rw [addParam, argParam]
  cases a.kind with
  | null => rfl
  | scalar => rfl
  | weight => rfl
  | input => exact htensor
  | output => exact htensor
  | scratch => exact htensor

theorem addBase_eq (st : ParamState) (src : String) :
    addBase mem st src = (baseParam mem src).elim st (offer st) := by
  rw [addBase, baseParam]
  by_cases hmade : src ∈ aliasOuts mem ∨ src ∈ mem.flatMap RegionOp.outputs
  · rw [if_pos (.inr hmade), if_pos hmade]
    rfl
  · rw [if_neg hmade]
    show _ = offer st ⟨.input, src⟩
    show _ = if src ∈ st.seen then st else _
    by_cases hseen : src ∈ st.seen
    · rw [if_pos (.inl hseen), if_pos hseen]
    · rw [if_neg (by rw [not_or]; exact ⟨hseen, hmade⟩), if_neg hseen]
      rfl

theorem foldl_elim_offer {α : Type} (f : α → Option RegionParam) (l : List α) (st : ParamState) :
    l.foldl (fun st a => (f a).elim st (offer st)) st = (l.filterMap f).foldl offer st := by
  induction l generalizing st with
  | nil => rfl
  | cons a l ih =>
    rw [foldl_cons, ih]
    cases hf : f a with
    | none => rw [filterMap_cons_none hf]; rfl
    | some p => rw [filterMap_cons_some hf]; rfl

/-- The parameters that the members ask for, in their order. -/
def askedParams (env : RegionEnv) (mem : List RegionOp) (outputs internal : List String) :
    List RegionParam :=
  (allArgs env mem).filterMap (argParam mem outputs internal) ++
    ((mem.filter RegionOp.isAlias).filterMap (·.inputs.head?)).filterMap (baseParam mem)

variable {params : List RegionParam}

/-- `region_spec` takes the parameters that are asked for, each key once. -/
theorem regionParams_eq {env : RegionEnv} (h : regionParams env mem outputs internal = some params)
    :
    params = ((askedParams env mem outputs internal).foldl offer ⟨[], []⟩).params := by
  rw [regionParams] at h
  cases hargs : (mem.filter (!RegionOp.isAlias ·)).mapM env.args with
  | none =>
    rw [hargs] at h
    cases h
  | some args =>
    cases hbases : (mem.filter RegionOp.isAlias).mapM (·.inputs.head?) with
    | none =>
      rw [hargs, hbases] at h
      cases h
    | some bases =>
      rw [hargs, hbases] at h
      rw [← Option.some.inj h, askedParams, foldl_append, ← foldl_elim_offer,
        ← foldl_elim_offer, Fallible.flatten_of_mapM hargs, Fallible.filterMap_of_mapM hbases]
      simp only [← addParam_eq, ← addBase_eq]
      rfl

/-- What is kept of the parameters that are asked for. -/
structure Offered (asked : List RegionParam) (st : ParamState) : Prop where
  seen : st.seen = st.params.map RegionParam.key
  nodup : st.seen.Nodup
  subset : ∀ p ∈ st.params, p ∈ asked
  found : ∀ c ∈ asked, c.key ∈ st.seen

theorem offered_foldl (asked : List RegionParam) : Offered asked (asked.foldl offer ⟨[], []⟩) := by
  induction asked using reverseRecOn with
  | nil => exact ⟨rfl, nodup_nil, nofun, nofun⟩
  | append_singleton asked c ih =>
    rw [foldl_append, foldl_cons, foldl_nil, offer]
    by_cases hseen : c.key ∈ (asked.foldl offer ⟨[], []⟩).seen
    · rw [if_pos hseen]
      refine ⟨ih.seen, ih.nodup, fun p hp => mem_append_left _ (ih.subset p hp), ?_⟩
      intro d hd
      rcases mem_append.mp hd with hd | hd
      · exact ih.found d hd
      · rwa [mem_singleton.mp hd]
    · rw [if_neg hseen]
      constructor
      · show _ ++ [c.key] = (_ ++ [c]).map RegionParam.key
        rw [map_append, ← ih.seen]
        rfl
      · exact nodup_append.mpr ⟨ih.nodup, nodup_singleton _, fun k hk k' hk' heq =>
          hseen (by rwa [← mem_singleton.mp hk', ← heq])⟩
      · intro p hp
        rcases mem_append.mp hp with hp | hp
        · exact mem_append_left _ (ih.subset p hp)
        · exact mem_append_right _ hp
      · intro d hd
        rcases mem_append.mp hd with hd | hd
        · exact mem_append_left _ (ih.found d hd)
        · rw [mem_singleton.mp hd]
          exact mem_append_right _ (mem_singleton_self _)

/-! ### Names -/

variable {env : SeedEnv} {p : RegionParam}

theorem mem_allArgs {a : RegionArg} (env : RegionEnv) : a ∈ allArgs env mem ↔
    ∃ m ∈ mem, m.isAlias = false ∧ ∃ args, env.args m = some args ∧ a ∈ args := by
  rw [allArgs, mem_flatMap]
  constructor
  · rintro ⟨m, hm, ha⟩
    obtain ⟨hmem, halias⟩ := mem_filter.mp hm
    cases hargs : env.args m with
    | none =>
      rw [hargs] at ha
      exact absurd ha not_mem_nil
    | some args =>
      rw [hargs] at ha
      exact ⟨m, hmem, by simpa using halias, args, hargs, ha⟩
  · rintro ⟨m, hmem, halias, args, hargs, ha⟩
    refine ⟨m, mem_filter.mpr ⟨hmem, by simp [halias]⟩, ?_⟩
    rwa [hargs]

theorem mem_passedTensors {env : RegionEnv} {t : String} : t ∈ passedTensors env mem ↔
    ((∃ a ∈ allArgs env mem, a.isTensor = true ∧ a.value = t) ∨
      ∃ m ∈ mem, m.isAlias = true ∧ m.inputs.head? = some t) ∧ t ∉ aliasOuts mem := by
  simp only [passedTensors, mem_filter, mem_append, mem_map, mem_filterMap,
    decide_eq_true_eq, and_assoc]

variable {w : String}

theorem mem_passedWeights {env : RegionEnv} : w ∈ passedWeights env mem ↔
    ∃ a ∈ allArgs env mem, a.kind = .weight ∧ a.value = w := by
  simp only [passedWeights, mem_map, mem_filter, decide_eq_true_eq, and_assoc]

theorem argParam_tensor {a : RegionArg} (h : a.isTensor = true) (hnot : a.value ∉ aliasOuts mem) :
    argParam mem outputs internal a = some ⟨roleOf outputs internal a, a.value⟩ := by
  rw [argParam]
  cases hkind : a.kind <;> simp [RegionArg.isTensor, hkind] at h <;> exact if_neg hnot

/-- What a parameter is asked for. -/
theorem of_mem_askedParams {env : RegionEnv} (h : p ∈ askedParams env mem outputs internal) :
    (p.role ≠ .weight ∧ p.value ∈ passedTensors env mem) ∨
      (p.role = .weight ∧ p.value ∈ passedWeights env mem) := by
  rcases mem_append.mp h with h | h
  · obtain ⟨a, ha, hp⟩ := mem_filterMap.mp h
    by_cases hweight : a.kind = .weight
    · right
      rw [argParam, hweight] at hp
      rw [← Option.some.inj hp]
      exact ⟨rfl, mem_passedWeights.mpr ⟨a, ha, hweight, rfl⟩⟩
    · left
      have htensor : a.isTensor = true := by
        rw [argParam] at hp
        cases hkind : a.kind with
        | input => simp [RegionArg.isTensor, hkind]
        | output => simp [RegionArg.isTensor, hkind]
        | scratch => simp [RegionArg.isTensor, hkind]
        | weight => exact absurd hkind hweight
        | null =>
          rw [hkind] at hp
          cases hp
        | scalar =>
          rw [hkind] at hp
          cases hp
      by_cases halias : a.value ∈ aliasOuts mem
      · have hnone : argParam mem outputs internal a = none := by
          rw [argParam]
          cases hkind : a.kind <;> simp [halias]
          exact hweight hkind
        rw [hnone] at hp
        cases hp
      · rw [argParam_tensor htensor halias] at hp
        rw [← Option.some.inj hp]
        exact ⟨roleOf_ne_weight outputs internal a,
          mem_passedTensors.mpr ⟨.inl ⟨a, ha, htensor, rfl⟩, halias⟩⟩
  · left
    obtain ⟨src, hsrc, hp⟩ := mem_filterMap.mp h
    obtain ⟨m, hm, hhead⟩ := mem_filterMap.mp hsrc
    obtain ⟨hmem, halias⟩ := mem_filter.mp hm
    rw [baseParam] at hp
    split_ifs at hp with hmade
    rw [not_or] at hmade
    rw [← Option.some.inj hp]
    exact ⟨nofun, mem_passedTensors.mpr ⟨.inr ⟨m, hmem, halias, hhead⟩, hmade.1⟩⟩

/-- Every tensor that the region needs is asked for. -/
theorem IrMembers.asked_tensor (hir : IrMembers env mem) {t : String}
    (hargs : ∀ m ∈ mem, m.isAlias = false → ∃ args, env.args m = some args)
    (h : t ∈ passedTensors env.toRegionEnv mem) :
    ∃ p ∈ askedParams env.toRegionEnv mem outputs internal, p.role ≠ .weight ∧ p.value = t := by
  obtain ⟨hneeded, halias⟩ := mem_passedTensors.mp h
  have harg : ∀ a ∈ allArgs env.toRegionEnv mem, a.isTensor = true → a.value = t →
      ∃ p ∈ askedParams env.toRegionEnv mem outputs internal, p.role ≠ .weight ∧ p.value = t := by
    rintro a ha htensor rfl
    have hparam := mem_filterMap.mpr ⟨a, ha, @argParam_tensor _ outputs internal _ htensor halias⟩
    exact ⟨_, mem_append_left _ hparam, roleOf_ne_weight outputs internal a, rfl⟩
  rcases hneeded with ⟨a, ha, htensor, hvalue⟩ | ⟨m, hm, hmalias, hhead⟩
  · exact harg a ha htensor hvalue
  · by_cases hmade : t ∈ mem.flatMap RegionOp.outputs
    · -- The member that makes it has it as an argument.
      obtain ⟨m', hm', ht⟩ := mem_flatMap.mp hmade
      have hnot : m'.isAlias = false := by
        rw [← Bool.not_eq_true]
        exact fun h' => halias (mem_aliasOuts.mpr ⟨m', hm', h', ht⟩)
      obtain ⟨args, heq⟩ := hargs m' hm' hnot
      obtain ⟨a, ha, hkind, hvalue⟩ := (hir.args m' hm' hnot args heq).outputs t ht
      exact harg a ((mem_allArgs _).mpr ⟨m', hm', hnot, args, heq, ha⟩)
        (by simp [RegionArg.isTensor, hkind]) hvalue
    · refine ⟨⟨.input, t⟩, mem_append_right _ (mem_filterMap.mpr ⟨t, ?_, ?_⟩), nofun, rfl⟩
      · exact mem_filterMap.mpr ⟨m, mem_filter.mpr ⟨hm, hmalias⟩, hhead⟩
      · rw [baseParam, if_neg (by rw [not_or]; exact ⟨halias, hmade⟩)]

theorem asked_weight {env : RegionEnv} (h : w ∈ passedWeights env mem) :
    ∃ p ∈ askedParams env mem outputs internal, p.role = .weight ∧ p.value = w := by
  obtain ⟨a, ha, hkind, rfl⟩ := mem_passedWeights.mp h
  refine ⟨⟨.weight, a.value⟩, mem_append_left _ (mem_filterMap.mpr ⟨a, ha, ?_⟩), rfl, rfl⟩
  rw [argParam, hkind]

theorem weightKey_inj {w' : String} (h : weightKey w = weightKey w') : w = w' :=
  (String.append_right_inj _).mp h

theorem exists_args_of_regionParams {env : RegionEnv} {params : List RegionParam}
    (h : regionParams env mem outputs internal = some params) {m : RegionOp} (hm : m ∈ mem)
    (halias : m.isAlias = false) : ∃ args, env.args m = some args := by
  have hargs : (mem.filter (!RegionOp.isAlias ·)).mapM env.args ≠ none := by
    intro hnone
    rw [regionParams, hnone] at h
    cases h
  exact Option.ne_none_iff_exists'.mp
    (Fallible.mapM_ne_none_iff.mp hargs m (mem_filter.mpr ⟨hm, by simp [halias]⟩))

/-- What is kept of the parameters that are asked for. -/
theorem offered_of_regionParams {env : RegionEnv}
    (h : regionParams env mem outputs internal = some params) :
    ∃ seen, Offered (askedParams env mem outputs internal) ⟨params, seen⟩ := by
  rw [regionParams_eq h]
  exact ⟨_, offered_foldl _⟩

theorem entryBuffer_of_mem (hnodup : (params.map RegionParam.name).Nodup) (hp : p ∈ params) :
    entryBuffer params p.name = some p.buffer := by
  rw [entryBuffer, if_pos hnodup]
  cases hfind : params.find? fun q => q.name = p.name with
  | none =>
    rw [find?_eq_none] at hfind
    exact absurd (decide_eq_true rfl) (hfind p hp)
  | some q =>
    have hname : q.name = p.name := by simpa using find?_some hfind
    rw [inj_on_of_nodup_map hnodup (mem_of_find?_eq_some hfind) hp hname]
    rfl

theorem get?_paramNames (hnodup : (params.map RegionParam.key).Nodup) (hp : p ∈ params) :
    (paramNames params).get? p.key = some p.name := by
  rw [paramNames, PyDict.get?_ofList_iff (by rwa [map_map])]
  exact mem_map_of_mem hp

/-- Parameters with distinct names are found, and no others. -/
theorem named_iff_namesDistinct (hir : IrMembers env mem)
    (hparams : regionParams env.toRegionEnv mem outputs internal = some params) :
    Named env.toRegionEnv mem params ↔ NamesDistinct env.toRegionEnv mem params := by
  obtain ⟨seen, hoffered⟩ := offered_of_regionParams hparams
  have hargs := fun m hm h => @exists_args_of_regionParams _ _ _ _ _ hparams m hm h
  have hkeys : (params.map RegionParam.key).Nodup := hoffered.seen ▸ hoffered.nodup
  have hkept : ∀ c ∈ askedParams env.toRegionEnv mem outputs internal,
      ∃ p ∈ params, p.key = c.key :=
    fun c hc => mem_map.mp (hoffered.seen ▸ hoffered.found c hc)
  constructor
  · intro h
    -- A parameter under a key is the one that the key is for.
    have hfinds : ∀ p ∈ params, ∃ name b, (paramNames params).get? p.key = some name ∧
        entryBuffer params name = some b := by
      intro p hp
      rcases of_mem_askedParams (hoffered.subset p hp) with ⟨hrole, hmem⟩ | ⟨hrole, hmem⟩
      · obtain ⟨name, hname, hb⟩ := h.tensors _ hmem
        exact ⟨name, _, by rwa [RegionParam.key_of_ne hrole], hb⟩
      · obtain ⟨name, hname, hb⟩ := h.weights _ hmem
        exact ⟨name, _, by rwa [RegionParam.key_of_eq hrole], hb⟩
    constructor
    · intro p hp q hq heq
      obtain ⟨name, b, -, hb⟩ := hfinds p hp
      rw [entryBuffer] at hb
      split_ifs at hb with hnodup
      exact inj_on_of_nodup_map hnodup hp hq heq
    · rintro t ht w hw rfl
      obtain ⟨name, hname, hb⟩ := h.tensors _ ht
      obtain ⟨name', hname', hb'⟩ := h.weights w hw
      rw [hname] at hname'
      rw [← Option.some.inj hname', hb] at hb'
      cases hb'
  · rintro ⟨hnames, hclash⟩
    have hnodup : (params.map RegionParam.name).Nodup :=
      List.Nodup.map_on hnames (List.Nodup.of_map _ hkeys)
    have hfound : ∀ p ∈ params, Finds params p.key p.buffer := fun p hp =>
      ⟨p.name, get?_paramNames hkeys hp, entryBuffer_of_mem hnodup hp⟩
    constructor
    · intro t ht
      obtain ⟨c, hc, hrole, rfl⟩ := hir.asked_tensor hargs ht
      obtain ⟨p, hp, hkey⟩ := hkept c hc
      rw [RegionParam.key_of_ne hrole] at hkey
      rw [← hkey]
      rcases of_mem_askedParams (hoffered.subset p hp) with ⟨hrole', -⟩ | ⟨hrole', hmem⟩
      · have hfind := hfound p hp
        rwa [RegionParam.buffer_of_ne hrole', ← RegionParam.key_of_ne hrole'] at hfind
      · rw [RegionParam.key_of_eq hrole'] at hkey
        exact absurd hkey.symm (hclash _ ht _ hmem)
    · intro w hw
      obtain ⟨c, hc, hrole, rfl⟩ := asked_weight hw
      obtain ⟨p, hp, hkey⟩ := hkept c hc
      rw [RegionParam.key_of_eq hrole] at hkey
      rcases of_mem_askedParams (hoffered.subset p hp) with ⟨hrole', hmem⟩ | ⟨hrole', -⟩
      · rw [RegionParam.key_of_ne hrole'] at hkey
        exact absurd hkey (hclash _ hmem _ hw)
      · have hfind := hfound p hp
        rw [RegionParam.buffer_of_eq hrole', hkey] at hfind
        rw [RegionParam.key_of_eq hrole'] at hkey
        rwa [weightKey_inj hkey] at hfind

end

/-! ### The loop over the members -/

/-- The numbers of the members that are called. -/
def callIndices (members : List RegionOp) : List ℕ :=
  (members.zipIdx.filter fun p => !p.1.isAlias).map Prod.snd

/-- What the loop has written for some members, of which `lv` has the levels. -/
structure IsSeed (env : SeedEnv) (pname : PyDict String String) (lv : List ℤ)
    (members : List RegionOp) (st : SeedState) : Prop where
  placed : Placed members
  plain : ∀ t, t ∉ aliasOuts members → st.aliases.get? t = none
  /-- The tensors of views and chunks are written with the base of the input. -/
  aliases : ∀ m ∈ members, m.isAlias = true → ∀ src offsets, m.inputs.head? = some src →
    aliasOffsets m = .ok offsets → ∀ t k, (t, k) ∈ offsets →
    st.aliases.get? t = some (.add (baseExpr pname st.aliases src) k)
  /-- The arguments of a call are those of its member. -/
  calls : ∀ c ∈ st.calls, ∃ m args, members[c.2.member]? = some m ∧ m.isAlias = false ∧
    lv[c.2.member]? = some c.1 ∧ env.args m = some args ∧
    args.mapM (seedArg pname st.aliases) = .ok c.2.args
  members : (st.calls.map fun c => c.2.member) = callIndices members

section
variable {env : SeedEnv} {pname : PyDict String String} {members pre post : List RegionOp}
  {lv : List ℤ} {m : RegionOp} {st st' : SeedState} {t : String}

variable {a : RegionArg}

theorem MemberArgs.tensor {args : List RegionArg} (h : MemberArgs m args) (ha : a ∈ args)
    (htensor : a.isTensor = true) : a.value ∈ m.inputs ∨ a.value ∈ m.made := by
  have hkind : a.kind = .input ∨ a.kind = .output ∨ a.kind = .scratch := by
    simpa [RegionArg.isTensor] using htensor
  rcases hkind with hin | hout
  · exact h.reads a ha hin
  · exact .inr (h.writes a ha hout)

section
variable (h : IrMembers env members) (hsplit : members = pre ++ m :: post)
include h hsplit

/-- What a member reads or makes is not made later. -/
theorem IrMembers.notMem_later (ht : t ∈ m.inputs ∨ t ∈ m.made) : t ∉ madeBy post := by
  rcases ht with hin | hmade
  · have hnot := h.topological pre m post hsplit t hin
    exact fun hmem => hnot (mem_append_right _ hmem)
  · exact (h.notMem_of_made hsplit hmade).2

theorem IrMembers.notMem_outputs {m' : RegionOp} (hm' : m' ∈ pre) (ht : t ∈ m'.inputs ∨ t ∈ m'.made) :
    t ∉ m.outputs := by
  obtain ⟨before, between, rfl⟩ := append_of_mem hm'
  rw [append_assoc, cons_append] at hsplit
  have hlater : t ∉ madeBy (between ++ m :: post) := h.notMem_later hsplit ht
  rw [madeBy_append, madeBy_cons] at hlater
  exact fun hmem => hlater (mem_append_right _
    (mem_append_left _ (RegionOp.mem_made_of_mem_outputs hmem)))

end

variable {aliases : PyDict String PtrExpr} {aliases' : PyDict String PtrExpr}

theorem seedArg_congr (h : a.isTensor = true → aliases'.get? a.value = aliases.get? a.value) :
    seedArg pname aliases' a = seedArg pname aliases a := by
  by_cases htensor : a.isTensor = true
  · rw [seedArg, seedArg, h htensor]
  · rw [seedArg, seedArg]
    cases hkind : a.kind <;> simp [RegionArg.isTensor, hkind] at htensor <;> rfl

theorem get?_foldl_offsets (f : ℤ → PtrExpr) {offsets : List (String × ℤ)}
    (hnodup : (offsets.map Prod.fst).Nodup) (d : PyDict String PtrExpr) :
    (∀ t k, (t, k) ∈ offsets →
      (offsets.foldl (fun d p => d.set p.1 (f p.2)) d).get? t = some (f k)) ∧
      ∀ t, t ∉ offsets.map Prod.fst →
        (offsets.foldl (fun d p => d.set p.1 (f p.2)) d).get? t = d.get? t := by
  induction offsets generalizing d with
  | nil => exact ⟨nofun, fun _ _ => rfl⟩
  | cons p offsets ih =>
    obtain ⟨hnot, hrest⟩ := nodup_cons.mp hnodup
    obtain ⟨hin, hout⟩ := ih hrest (d.set p.1 (f p.2))
    constructor
    · intro t k hmem
      rcases mem_cons.mp hmem with rfl | hmem
      · rw [foldl_cons, hout t hnot, PyDict.get?_set_self]
      · exact hin t k hmem
    · intro t ht
      rw [map_cons, mem_cons, not_or] at ht
      rw [foldl_cons, hout t ht.2, PyDict.get?_set_of_ne _ _ ht.1]

theorem callIndices_append_single (pre : List RegionOp) (m : RegionOp) :
    callIndices (pre ++ [m]) = callIndices pre ++ if m.isAlias then [] else [pre.length] := by
  rw [callIndices, zipIdx_append, filter_append, map_append]
  congr 1
  cases hm : m.isAlias <;> simp [hm]

theorem baseExpr_congr {src : String} (h : aliases'.get? src = aliases.get? src) :
    baseExpr pname aliases' src = baseExpr pname aliases src := by
  rw [baseExpr, baseExpr, h]

section
variable (hir : IrMembers env members) (hsplit : members = pre ++ m :: post)
include hir hsplit

/-- What was written for the earlier members stays. -/
theorem IsSeed.keep (h : IsSeed env pname lv pre st)
    (hold : ∀ t, t ∉ m.outputs → aliases.get? t = st.aliases.get? t) :
    (∀ m' ∈ pre, m'.isAlias = true → ∀ src offsets, m'.inputs.head? = some src →
      aliasOffsets m' = .ok offsets → ∀ t k, (t, k) ∈ offsets →
      aliases.get? t = some (.add (baseExpr pname aliases src) k)) ∧
    ∀ c ∈ st.calls, ∃ m' args, (pre ++ [m])[c.2.member]? = some m' ∧ m'.isAlias = false ∧
      lv[c.2.member]? = some c.1 ∧ env.args m' = some args ∧
      args.mapM (seedArg pname aliases) = .ok c.2.args := by
  have hmem : ∀ m' ∈ pre, m' ∈ members := fun m' hm' => by
    rw [hsplit]
    exact mem_append_left _ hm'
  constructor
  · intro m' hm' halias src offsets hhead hoffsets t k ht
    have hkeys := hir.map_fst_offsets (hmem m' hm') halias hoffsets
    have hout : t ∈ m'.outputs := hkeys ▸ mem_map_of_mem ht
    rw [hold t (hir.notMem_outputs hsplit hm' (.inr (RegionOp.mem_made_of_mem_outputs hout))),
      h.aliases m' hm' halias src offsets hhead hoffsets t k ht,
      baseExpr_congr (hold src (hir.notMem_outputs hsplit hm' (.inl (mem_of_mem_head? hhead))))]
  · intro c hc
    obtain ⟨m', args, hm', halias, hlevel, hargs, hpassed⟩ := h.calls c hc
    refine ⟨m', args, ?_, halias, hlevel, hargs, ?_⟩
    · rwa [getElem?_append_left (List.getElem?_eq_some_iff.mp hm').1]
    · rw [← hpassed]
      have hin := mem_of_getElem? hm'
      apply Fallible.mapM_congr
      intro a ha
      apply seedArg_congr
      intro htensor
      exact hold _ (hir.notMem_outputs hsplit hin
        ((hir.args m' (hmem m' hin) halias args hargs).tensor ha htensor))

/-- A view or a chunk enters the pointers. -/
theorem IsSeed.step_alias (halias : m.isAlias = true) (h : IsSeed env pname lv pre st)
    (hstep : aliasSeed pname st m = .ok st') : IsSeed env pname lv (pre ++ [m]) st' := by
  have hm : m ∈ members := by
    rw [hsplit]
    exact mem_append_right _ mem_cons_self
  cases hin : m.inputs with
  | nil =>
    rw [aliasSeed, hin] at hstep
    cases hstep
  | cons src rest =>
    cases hoffsets : aliasOffsets m with
    | error e =>
      rw [aliasSeed, hin, hoffsets] at hstep
      cases hstep
    | ok offsets =>
      rw [aliasSeed, hin, hoffsets] at hstep
      cases hstep
      have hhead : m.inputs.head? = some src := by
        rw [hin]
        rfl
      have hkeys := hir.map_fst_offsets hm halias hoffsets
      have hnodup : (offsets.map Prod.fst).Nodup := by
        rw [hkeys]
        exact (nodup_append.mp (hir.nodup_made hm)).1
      obtain ⟨hnew, hold⟩ := get?_foldl_offsets
        (fun k => .add (baseExpr pname st.aliases src) k) hnodup st.aliases
      rw [hkeys] at hold
      obtain ⟨haliases, hcalls⟩ := h.keep hir hsplit hold
      constructor
      · intro m' hm' halias'
        rcases mem_append.mp hm' with hpre | hlast
        · exact h.placed m' hpre halias'
        · rw [mem_singleton.mp hlast]
          exact ⟨src, offsets, hhead, hoffsets⟩
      · intro t ht
        rw [aliasOuts_append, mem_append, not_or] at ht
        have hout : t ∉ m.outputs := fun hmem =>
          ht.2 (mem_aliasOuts.mpr ⟨m, mem_singleton_self m, halias, hmem⟩)
        exact (hold t hout).trans (h.plain t ht.1)
      · intro m' hm' halias' src' offsets' hhead' hoffsets' t k ht
        rcases mem_append.mp hm' with hpre | hlast
        · exact haliases m' hpre halias' src' offsets' hhead' hoffsets' t k ht
        · rw [mem_singleton.mp hlast] at hhead' hoffsets'
          rw [hhead] at hhead'
          rw [hoffsets] at hoffsets'
          cases hhead'
          cases hoffsets'
          -- The input is not an output of the same op.
          have hsrc : src ∉ m.outputs := fun hmem =>
            hir.topological pre m post hsplit src (mem_of_mem_head? hhead)
              (by rw [madeBy_cons]
                  exact mem_append_left _ (RegionOp.mem_made_of_mem_outputs hmem))
          rw [baseExpr_congr (hold src hsrc)]
          exact hnew t k ht
      · exact hcalls
      · rw [callIndices_append_single, halias]
        exact h.members.trans (append_nil _).symm

/-- Another member gets its call. -/
theorem IsSeed.step_call (halias : m.isAlias = false) (h : IsSeed env pname lv pre st) {level : ℤ}
    (hlevel : lv[pre.length]? = some level)
    (hstep : callSeed env pname st m pre.length level = .ok st') :
    IsSeed env pname lv (pre ++ [m]) st' := by
  rw [callSeed] at hstep
  split_ifs at hstep
  cases hargs : env.args m with
  | none =>
    rw [hargs] at hstep
    cases hstep
  | some args =>
    rw [hargs] at hstep
    have hmap : (args.mapM (seedArg pname st.aliases)).map
        (fun passed => { st with calls := st.calls ++ [(level, ⟨pre.length, passed⟩)] }) =
          .ok st' := hstep
    cases hpassed : args.mapM (seedArg pname st.aliases) with
    | error e =>
      rw [hpassed] at hmap
      cases hmap
    | ok passed =>
      rw [hpassed] at hmap
      cases hmap
      obtain ⟨haliases, hcalls⟩ := h.keep hir hsplit fun t _ => rfl
      constructor
      · intro m' hm' halias'
        rcases mem_append.mp hm' with hpre | hlast
        · exact h.placed m' hpre halias'
        · rw [mem_singleton.mp hlast, halias] at halias'
          cases halias'
      · intro t ht
        rw [aliasOuts_append, mem_append, not_or] at ht
        exact h.plain t ht.1
      · intro m' hm' halias'
        rcases mem_append.mp hm' with hpre | hlast
        · exact haliases m' hpre halias'
        · rw [mem_singleton.mp hlast, halias] at halias'
          cases halias'
      · intro c hc
        rcases mem_append.mp hc with hc | hc
        · exact hcalls c hc
        · rw [mem_singleton.mp hc]
          exact ⟨m, args, by simp, halias, hlevel, hargs, hpassed⟩
      · rw [callIndices_append_single, halias, map_append, h.members]
        rfl

end

/-- The loop writes a call for each member, with the pointers of its arguments. -/
theorem isSeed_of_seedRun (hir : IrMembers env members) (h : seedRun env pname members = .ok st) :
    IsSeed env pname (levels members) members st := by
  have hlen : (members.zip (levels members)).zipIdx.length = members.length := by
    simp [length_levels]
  have hrun := @Fallible.foldlM_induction _ _ _ (seedStep env pname)
    (fun done st => ∀ rest, done ++ rest = (members.zip (levels members)).zipIdx →
      IsSeed env pname (levels members) (members.take done.length) st)
  have hdone := hrun ?_ ?_ h [] (append_nil _)
  · rwa [hlen, take_length] at hdone
  · intro done p st st' hinv hstep rest hwhole
    rw [append_assoc, singleton_append] at hwhole
    have hprev := hinv _ hwhole
    have hget : (members.zip (levels members)).zipIdx[done.length]? = some p := by
      rw [← hwhole, getElem?_append_right (Nat.le_refl _), Nat.sub_self]
      rfl
    rw [getElem?_zipIdx] at hget
    obtain ⟨q, hq, rfl⟩ := Option.map_eq_some_iff.mp hget
    obtain ⟨hm, hlevel⟩ := getElem?_zip_eq_some.mp hq
    obtain ⟨pre, post, hsplit, hpre⟩ := PyList.exists_append_of_getElem? hm
    have htake : members.take done.length = pre := by
      rw [hsplit, ← hpre, take_left]
    have htake' : members.take (done ++ [(q, 0 + done.length)]).length = pre ++ [q.1] := by
      rw [hsplit, append_cons pre, take_left' (by simp [hpre])]
    rw [htake] at hprev
    rw [htake']
    rw [seedStep, Nat.zero_add, ← hpre] at hstep
    rw [← hpre] at hlevel
    split_ifs at hstep with halias
    · exact hprev.step_alias hir hsplit halias hstep
    · exact hprev.step_call hir hsplit (by simpa using halias) hlevel hstep
  · intro rest _
    exact ⟨nofun, fun _ _ => rfl, nofun, nofun, rfl⟩

/-! ### Evaluation -/

/-- What is written for a tensor. -/
def tensorExpr (pname : PyDict String String) (aliases : PyDict String PtrExpr) (t : String) :
    Option PtrExpr :=
  (aliases.get? t).or ((pname.get? t).map PtrExpr.param)

/-- What is written for a tensor points to its place. -/
def Points (params : List RegionParam) (members : List RegionOp)
    (aliases : PyDict String PtrExpr) (t : String) : Prop :=
  ∃ e, tensorExpr (paramNames params) aliases t = some e ∧
    evalPtr params e = some (.tensor (addrOf members t).1, (addrOf members t).2)

variable {params : List RegionParam}

theorem IsSeed.points_plain (h : IsSeed env (paramNames params) lv members st)
    (hfinds : Finds params t (.tensor t)) (hplain : t ∉ aliasOuts members) :
    Points params members st.aliases t := by
  obtain ⟨name, hname, hbuffer⟩ := hfinds
  refine ⟨.param name, ?_, ?_⟩
  · rw [tensorExpr, h.plain t hplain, hname]
    rfl
  · rw [addrOf_of_notMem hplain, evalPtr, hbuffer]
    rfl

/-- The expressions of views and chunks point to the base, as far behind it as the offsets say. -/
theorem IsSeed.points_alias (hir : IrMembers env members)
    (h : IsSeed env (paramNames params) lv members st)
    (hnamed : Named env.toRegionEnv members params) (ht : t ∈ aliasOuts members) :
    Points params members st.aliases t := by
  have hrun : ∀ pre post, members = pre ++ post → ∀ t ∈ aliasOuts pre,
      Points params members st.aliases t := by
    intro pre
    induction pre using reverseRecOn with
    | nil => exact fun _ _ t ht => absurd ht not_mem_nil
    | append_singleton pre m ih =>
      intro post hsplit t ht
      rw [append_assoc, singleton_append] at hsplit
      rw [aliasOuts_append, mem_append] at ht
      rcases ht with ht | ht
      · exact ih _ hsplit t ht
      obtain ⟨m', hm', halias, hout⟩ := mem_aliasOuts.mp ht
      obtain rfl := mem_singleton.mp hm'
      have hm : m' ∈ members := by
        rw [hsplit]
        exact mem_append_right _ mem_cons_self
      obtain ⟨src, offsets, hhead, hoffsets⟩ := h.placed m' hm halias
      have hkeys := hir.map_fst_offsets hm halias hoffsets
      obtain ⟨⟨u, k⟩, hmem, hfst⟩ := mem_map.mp (hkeys ▸ hout)
      obtain rfl : u = t := hfst
      -- The base is written already.
      have hbase : Points params members st.aliases src := by
        by_cases hsrc : src ∈ aliasOuts members
        · apply ih _ hsplit src
          rw [hsplit, aliasOuts_append, mem_append] at hsrc
          exact hsrc.resolve_right fun hlater => hir.topological pre m' post hsplit src
            (mem_of_mem_head? hhead) (mem_madeBy_of_mem_aliasOuts hlater)
        · exact h.points_plain (hnamed.tensors src
            (mem_passedTensors.mpr ⟨.inr ⟨m', hm, halias, hhead⟩, hsrc⟩)) hsrc
      obtain ⟨e, he, heval⟩ := hbase
      have hexpr : baseExpr (paramNames params) st.aliases src = e := by
        show (tensorExpr (paramNames params) st.aliases src).getD .missing = e
        rw [he]
        rfl
      refine ⟨.add e k, ?_, ?_⟩
      · rw [tensorExpr, h.aliases m' hm halias src offsets hhead hoffsets u k hmem, hexpr]
        rfl
      · rw [evalPtr, heval, hir.addrOf_alias hm halias hhead hoffsets hmem]
        rfl
  exact hrun members [] (append_nil _).symm t ht

variable {s : ArgKind × SeedArg}

theorem seedArg_tensor (h : a.isTensor = true) : seedArg pname aliases a = .ok s ↔
      ∃ e, tensorExpr pname aliases a.value = some e ∧ s = (a.kind, .ptr e) := by
  have heq : seedArg pname aliases a =
      (tensorExpr pname aliases a.value).elim (.error .missing) fun e => .ok (a.kind, .ptr e) := by
    rw [seedArg, tensorExpr]
    cases hkind : a.kind <;> simp [RegionArg.isTensor, hkind] at h <;>
      cases (aliases.get? a.value).or ((pname.get? a.value).map PtrExpr.param) <;> rfl
  rw [heq]
  cases tensorExpr pname aliases a.value with
  | none => exact iff_of_false nofun fun ⟨e, he, _⟩ => by cases he
  | some e =>
    constructor
    · intro hs
      exact ⟨e, rfl, (Except.ok.inj hs).symm⟩
    · rintro ⟨e', he', rfl⟩
      cases he'
      rfl

theorem seedArg_weight (h : a.kind = .weight) : seedArg pname aliases a = .ok s ↔
      ∃ name, pname.get? (weightKey a.value) = some name ∧ s = (a.kind, .ptr (.param name)) := by
  have heq : seedArg pname aliases a = (pname.get? (weightKey a.value)).elim (.error .missing)
      fun name => .ok (a.kind, .ptr (.param name)) := by
    rw [seedArg, h]
    cases pname.get? (weightKey a.value) <;> rfl
  rw [heq]
  cases pname.get? (weightKey a.value) with
  | none => exact iff_of_false nofun fun ⟨e, he, _⟩ => by cases he
  | some name =>
    constructor
    · intro hs
      exact ⟨name, rfl, (Except.ok.inj hs).symm⟩
    · rintro ⟨name', hname', rfl⟩
      cases hname'
      rfl

theorem meaning_tensor (h : a.isTensor = true) : meaning members a =
    .ptr (.tensor (addrOf members a.value).1) (addrOf members a.value).2 := by
  rw [meaning]
  cases hkind : a.kind <;> simp [RegionArg.isTensor, hkind] at h <;> rfl

/-- Arguments are evaluated to what they mean. -/
theorem IsSeed.evalArg_eq (hir : IrMembers env members)
    (h : IsSeed env (paramNames params) lv members st)
    (hnamed : Named env.toRegionEnv members params) (ha : a ∈ allArgs env.toRegionEnv members)
    (hs : seedArg (paramNames params) st.aliases a = .ok s) :
    s.1 = a.kind ∧ evalArg params s.2 = some (meaning members a) := by
  by_cases htensor : a.isTensor = true
  · obtain ⟨e, he, rfl⟩ := (seedArg_tensor htensor).mp hs
    refine ⟨rfl, ?_⟩
    have hpoints : Points params members st.aliases a.value := by
      by_cases halias : a.value ∈ aliasOuts members
      · exact h.points_alias hir hnamed halias
      · exact h.points_plain (hnamed.tensors _
          (mem_passedTensors.mpr ⟨.inl ⟨a, ha, htensor, rfl⟩, halias⟩)) halias
    obtain ⟨e', he', heval⟩ := hpoints
    obtain rfl : e = e' := Option.some.inj (he.symm.trans he')
    rw [meaning_tensor htensor, evalArg, heval]
    rfl
  · cases hkind : a.kind with
    | weight =>
      obtain ⟨name, hname, rfl⟩ := (seedArg_weight hkind).mp hs
      obtain ⟨name', hname', hbuffer⟩ := hnamed.weights _
        (mem_passedWeights.mpr ⟨a, ha, hkind, rfl⟩)
      obtain rfl : name = name' := Option.some.inj (hname.symm.trans hname')
      refine ⟨hkind, ?_⟩
      rw [evalArg, evalPtr, hbuffer, meaning, hkind]
      rfl
    | null =>
      rw [seedArg, hkind] at hs
      cases hs
      rw [meaning, hkind]
      exact ⟨rfl, rfl⟩
    | scalar =>
      rw [seedArg, hkind] at hs
      cases hs
      rw [meaning, hkind]
      exact ⟨rfl, rfl⟩
    | input => exact absurd (by simp [RegionArg.isTensor, hkind]) htensor
    | output => exact absurd (by simp [RegionArg.isTensor, hkind]) htensor
    | scratch => exact absurd (by simp [RegionArg.isTensor, hkind]) htensor

end

end ModelBlaster.RegionSlots
